import Scriptlet.Proofs.Continuation
import Scriptlet.Proofs.Spaced

/-!
# A word or sign of assignment in front of a text

Neither scanner looks at places, so what it finds in a text it finds there wherever the text stands.
Behind a word or a sign of assignment and a space both start afresh: the terminals of the longer
text are one more terminal and those of the text, and its lexemes one more lexeme and those of the
text. Strings and comments in the text are of no consequence.

Outcomes are compared as options: an error is one at any place, but it says where it happened.

## Contents

- §1 symbols that statements begin with
- §2 terminals
- §3 marks without places
- §4 the scanner without places
- §5 lexemes
- §6 texts behind several symbols
-/

namespace Scriptlet

theorem toOption_bind {ε α β : Type} (x : Except ε α) (f : α → Except ε β) :
    (x >>= f).toOption = x.toOption.bind fun a => (f a).toOption := by
  cases x <;> rfl

theorem toOption_map {ε α β : Type} (f : α → β) (x : Except ε α) :
    (x.map f).toOption = x.toOption.map f := by
  cases x <;> rfl

theorem toOption_eq_some {ε α : Type} {x : Except ε α} {a : α} :
    x.toOption = some a ↔ x = .ok a := by
  cases x <;> simp [Except.toOption]

/-! ## §1 Symbols that statements begin with -/

/-- The operator is a sign of assignment of programs. -/
def Operator.stores (op : Operator) : Bool := op == .assign || op.compound?.isSome

/-- A word or a sign of assignment. -/
inductive Symbol.Leads : Symbol → Prop where
  | word (w : List Char) (h : IsWord w) : Leads (.word (Text.ofChars w))
  | sign (op : Operator) (h : op.stores = true) : Leads (.mark op.spelling)

/-- Names lead, in the text and among the lexemes. -/
theorem Symbol.Leads.text {t : Text} (hutf : t.isUtf8 = true) (h : IsWord t.chars) :
    Leads (.word t) := by
  rw [← Text.ofChars_chars hutf]
  exact .word t.chars h

/-- Keywords lead, in the text and among the lexemes. -/
theorem Symbol.Leads.reserved (k : Keyword) : Leads (.word k.spelling) := by
  cases k <;> exact .text (by decide) (by decide)

/-- The text with a symbol and a space in front of it. -/
def Symbol.before (x : Symbol) (t : Text) : Text := Text.ofChars x.chars ++ " " ++ t

theorem Symbol.Leads.chars_ne_nil {x : Symbol} (h : x.Leads) : x.chars ≠ [] := by
  cases h with
  | word w hw =>
    obtain ⟨c, more, rfl, _⟩ := hw
    rw [Symbol.chars, Text.chars_ofChars]
    exact List.cons_ne_nil c more
  | sign op _ =>
    rw [Symbol.chars, Operator.chars_spelling]
    exact op.chars_ne_nil

/-- A symbol that leads can be written. -/
theorem Symbol.Leads.writable {x : Symbol} (h : x.Leads) : x.Writable := by
  cases h with
  | word w hw => exact .word w hw
  | sign op _ => exact .operator op

/-- The glyphs of characters in front of a text. -/
theorem Text.glyphs_ofChars_append (cs : List Char) (t : Text) :
    Text.glyphs (Text.ofChars cs ++ t) = glyphsOf cs ++ t.glyphs := by
  induction cs with
  | nil => rfl
  | cons c cs ih =>
    rw [Text.ofChars_cons, List.append_assoc]
    exact (Text.glyphs_ofChar_append c _).trans (congrArg _ ih)

/-- The glyphs of a symbol in front of a text, with the space between. -/
theorem Symbol.glyphs_before (x : Symbol) (t : Text) :
    (x.before t).glyphs = glyphsOf x.chars ++ .char ' ' :: t.glyphs := by
  unfold Symbol.before
  rw [List.append_assoc, Text.glyphs_ofChars_append]
  exact congrArg _ (Text.glyphs_ofChars_append [' '] t)

/-! ## §2 Terminals -/

/-- The symbols of the terminals of glyphs of which the first `passed` belong to a match already
made. -/
def readSymbols (passed : Nat) (gs : List Glyph) : Option (List Symbol) :=
  (scanFrom .start passed gs).toOption.map fun read => read.1.map Terminal.symbol

/-- From any place the same symbols are read. -/
theorem scanFrom_symbols (loc : Location) (passed : Nat) (gs : List Glyph) :
    ((scanFrom loc passed gs).toOption.map fun read => read.1.map Terminal.symbol)
      = readSymbols passed gs := by
  -- places are only written down, so the recursion is the same for any two of them
  have hany : ∀ loc',
      ((scanFrom loc passed gs).toOption.map fun read => read.1.map Terminal.symbol)
        = (scanFrom loc' passed gs).toOption.map fun read => read.1.map Terminal.symbol := by
    induction gs generalizing loc passed with
    | nil => cases passed <;> exact fun _ => rfl
    | cons g gs ih =>
      intro loc'
      cases passed with
      | succ passed => exact ih (loc.after g) passed (loc'.after g)
      | zero =>
        rw [scanFrom, scanFrom]
        cases hrule : firstRule? (g :: gs) with
        | none => rfl
        | some found =>
          obtain ⟨rule, n⟩ := found
          have hmore := ih (loc.after g) (n - 1) (loc'.after g)
          cases rule with
          | openComment | openString => rfl
          | space | comment => exact hmore
          | terminal kind =>
            simp only [toOption_bind]
            cases hread : scanFrom (loc.after g) (n - 1) gs <;>
              cases hread' : scanFrom (loc'.after g) (n - 1) gs <;>
              simp_all [Except.toOption, pure, Except.pure, Terminal.symbol]
  exact hany .start

/-- A scan that succeeds is a reading of the symbols, without their places. -/
theorem scanTerminals_eq_ok {source : Text} {xs : List Symbol} :
    (∃ s, scanTerminals source = .ok s ∧ s.left 0 = xs) ↔
      readSymbols 0 source.glyphs = some xs := by
  unfold readSymbols scanTerminals
  cases scanFrom .start 0 source.glyphs with
  | error e => simp [Except.toOption, bind, Except.bind]
  | ok read =>
    simp [Except.toOption, bind, Except.bind, pure, Except.pure, Stream.left]

section

variable {gs : List Glyph}

/-- A run of characters stops at the space behind it. -/
theorem runLength_stopped {p : Char → Bool} {w : List Char} (hw : ∀ c ∈ w, p c = true)
    (hp : p ' ' = false) : runLength p (glyphsOf w ++ .char ' ' :: gs) = w.length := by
  unfold runLength
  rw [List.takeWhile_append_of_pos, List.takeWhile_cons]
  · simp [hp]
  · rintro g hg
    obtain ⟨c, hc, rfl⟩ := List.mem_map.mp hg
    exact hw c hc

/-- The rules that are tried before the one for words need another first character. -/
theorem firstRule?_wordStart {c : Char} (hc : isWordStart c = true) :
    firstRule? (.char c :: gs)
      = some (.terminal .ident, 1 + runLength (fun d => isWordStart d || isDecimalDigit d) gs) := by
  have hword : isWordChar c = true := by rw [isWordChar, hc, Bool.true_or]
  have hslash : (Glyph.char '/' == .char c) = false := by
    rw [char_beq]
    exact beq_eq_false_iff_ne.mpr (ne_of_wordChar (k := .operator) hword (by decide)).symm
  have hspace : ScanRule.space.length? (.char c :: gs) = none := by
    simp [ScanRule.length?, runLength, not_blank_of_wordChar hword]
  have hcomment : ScanRule.comment.length? (.char c :: gs) = none := by
    simp only [ScanRule.length?, commentLength?, startsWithChars, List.map_cons, List.isPrefixOf,
      hslash, Bool.false_and, Bool.false_eq_true, if_false]
  have hopen : ScanRule.openComment.length? (.char c :: gs) = none := by
    simp only [ScanRule.length?, startsWithChars, List.map_cons, List.isPrefixOf, hslash,
      Bool.false_and, Bool.false_eq_true, if_false]
  have hnumber : (ScanRule.terminal .number).length? (.char c :: gs) = none := by
    simp [ScanRule.length?, numberLength?, runLength, not_digit_of_wordStart hc]
  have hquote : openingQuote? (.char c :: gs) = none := by
    simp [openingQuote?, not_quote_of_wordChar hword]
  have hstring : (ScanRule.terminal .string).length? (.char c :: gs) = none := by
    rw [ScanRule.length?, hquote, Option.bind_none]
  have hopenString : ScanRule.openString.length? (.char c :: gs) = none := by
    rw [ScanRule.length?, hquote, Option.map_none]
  have hident : (ScanRule.terminal .ident).length? (.char c :: gs)
      = some (1 + runLength (fun d => isWordStart d || isDecimalDigit d) gs) := by
    simp only [ScanRule.length?, identLength?, hc, if_true]
  simp only [firstRule?, scanRules, List.findSome?, hspace, hcomment, hopen, hnumber, hstring,
    hopenString, hident, Option.map_none, Option.map_some]

/-- A sign that stores is scanned as one operator. -/
theorem firstRule?_sign {op : Operator} (h : op.stores = true) :
    firstRule? (glyphsOf op.chars ++ .char ' ' :: gs)
      = some (.terminal .operator, op.chars.length) := by
  cases op <;> first | rfl | cases h

/-- A symbol that leads is scanned by one rule, up to the space behind it. -/
theorem Symbol.Leads.firstRule? {x : Symbol} (h : x.Leads) :
    ∃ kind, Scriptlet.firstRule? (glyphsOf x.chars ++ .char ' ' :: gs)
        = some (.terminal kind, x.chars.length) ∧
      ∀ loc, Terminal.symbol ⟨kind, Text.ofChars x.chars, loc⟩ = x := by
  -- a word goes up to the space, and so does a sign
  cases h with
  | word w hw =>
    obtain ⟨c, more, rfl, hc, hmore⟩ := hw
    have hrun : runLength (fun d => isWordStart d || isDecimalDigit d)
        (glyphsOf more ++ .char ' ' :: gs) = more.length := runLength_stopped hmore (by decide)
    rw [Symbol.chars, Text.chars_ofChars]
    refine ⟨.ident, ?_, fun loc => rfl⟩
    rw [glyphsOf, List.map_cons, List.cons_append, firstRule?_wordStart hc, hrun, List.length_cons,
      Nat.add_comm]
  | sign op hop =>
    refine ⟨.operator, ?_, fun loc => ?_⟩
    · rw [Symbol.chars, Operator.chars_spelling]
      exact firstRule?_sign hop
    · rw [Symbol.chars, Operator.chars_spelling]
      rfl

end

/-- **Terminals behind a leading symbol**: it is one terminal, and behind the space the text is
read as by itself. -/
theorem readSymbols_before {x : Symbol} (h : x.Leads) (t : Text) :
    readSymbols 0 (x.before t).glyphs = (readSymbols 0 t.glyphs).map (x :: ·) := by
  obtain ⟨kind, hrule, hx⟩ := @Symbol.Leads.firstRule? t.glyphs x h
  rw [x.glyphs_before t]
  obtain ⟨c, more, hchars⟩ := List.exists_cons_of_ne_nil h.chars_ne_nil
  rw [hchars] at hrule hx ⊢
  have htext : Glyph.text ((glyphsOf (c :: more) ++ .char ' ' :: t.glyphs).take (c :: more).length)
      = Text.ofChars (c :: more) := by
    rw [List.take_left' (by simp)]
    exact text_glyphsOf (c :: more)
  -- the rest of the match is passed over and the space skipped, which moves the place only
  have hpassed (loc : Location) : scanFrom loc more.length (glyphsOf more ++ .char ' ' :: t.glyphs)
      = scanFrom ((glyphsOf more).foldl Location.after loc |>.after (.char ' ')) 0 t.glyphs := by
    have hmore := scanFrom_passed loc (glyphsOf more) (.char ' ' :: t.glyphs)
    rw [List.length_map] at hmore
    rw [hmore, scanFrom_of_blank rfl, scanFrom_runLength]
  rw [glyphsOf, List.map_cons, List.cons_append] at hrule htext ⊢
  unfold readSymbols
  rw [scanFrom_of_terminal hrule, htext, List.length_cons, Nat.add_sub_cancel]
  have hbehind := scanFrom_symbols
    (((glyphsOf more).foldl Location.after (Location.start.after (.char c))).after (.char ' ')) 0
    t.glyphs
  rw [← readSymbols, ← hbehind, ← hpassed]
  cases scanFrom (Location.start.after (.char c)) more.length
    (glyphsOf more ++ .char ' ' :: t.glyphs) with
  | error e => rfl
  | ok read => exact congrArg (fun y => some (y :: read.1.map Terminal.symbol)) (hx _)

/-! ## §3 Marks without places -/

/-- The mark without its place. -/
def Mark.bare (m : Mark) : Mark := { m with loc := .nowhere }

namespace Mark

variable (m : Mark)

@[simp] theorem bare_char : m.bare.char = m.char := rfl

@[simp] theorem bare_escaped : m.bare.escaped = m.escaped := rfl

@[simp] theorem bare_loc : m.bare.loc = .nowhere := rfl

@[simp] theorem bare_isPlain (c : Char) : m.bare.isPlain c = m.isPlain c := rfl

@[simp] theorem bare_isQuote : m.bare.isQuote = m.isQuote := rfl

@[simp] theorem bare_decoded : m.bare.decoded = m.decoded := rfl

@[simp] theorem bare_markClass : m.bare.markClass = m.markClass := rfl

@[simp] theorem bare_bare : m.bare.bare = m.bare := rfl

/-- A mark in front of marks that agree up to places. -/
theorem cons_bare {m m' : Mark} {xs ys : Except LexError (List Mark)} (hm : m.bare = m'.bare)
    (h : xs.toOption.map (List.map bare) = ys.toOption.map (List.map bare)) :
    ((do let more ← xs; return m :: more).toOption.map (List.map bare))
      = (do let more ← ys; return m' :: more).toOption.map (List.map bare) := by
  cases xs <;> cases ys <;> simp_all [Except.toOption, bind, Except.bind, pure, Except.pure]

/-- Escapes are paired alike at any place. -/
theorem ofGlyphs_bare (loc loc' : Location) (gs : List Glyph) :
    (ofGlyphs loc gs).toOption.map (List.map bare)
      = (ofGlyphs loc' gs).toOption.map (List.map bare) := by
  fun_induction ofGlyphs loc gs generalizing loc' with
  | case1 => rfl
  | case2 | case3 | case4 => rfl
  | case5 loc next c rest ih =>
    exact cons_bare rfl (ih _)
  | case6 loc c rest hslash ih =>
    rw [ofGlyphs.eq_6 loc' c rest hslash]
    exact cons_bare rfl (ih _)

end Mark

namespace CommentMode

/-- The mode without places. -/
def bare : CommentMode → CommentMode
  | .slash m => .slash m.bare
  | .block _ => .block .nowhere
  | .blockStar _ => .blockStar .nowhere
  | mode => mode

/-- In code, the step over a mark does not look at its place. -/
theorem stepCode_bare (m : Mark) :
    stepCode m.bare = ((stepCode m).1.bare, (stepCode m).2.map Mark.bare) := by
  cases hquote : m.isQuote <;> cases hslash : m.isPlain '/' <;>
    simp [stepCode, hquote, hslash, bare]

/-- The step over a mark does not look at its place. -/
theorem step_bare (mode : CommentMode) (m : Mark) :
    mode.bare.step m.bare = ((mode.step m).1.bare, (mode.step m).2.map Mark.bare) := by
  -- each mode is tested by the marks it looks for, and those are not about places
  cases mode with
  | code => exact stepCode_bare m
  | slash l =>
    cases hslash : m.isPlain '/' <;> cases hstar : m.isPlain '*' <;>
      simp [step, hslash, hstar, bare, stepCode_bare]
  | quoted q => cases hquote : m.isPlain q <;> simp [step, hquote, bare]
  | line => cases hend : m.isPlain '\n' <;> simp [step, hend, bare]
  | block opened => cases hstar : m.isPlain '*' <;> simp [step, hstar, bare]
  | blockStar opened =>
    cases hslash : m.isPlain '/' <;> cases hstar : m.isPlain '*' <;>
      simp [step, hslash, hstar, bare]

/-- Comments are open at the end wherever the marks stand. -/
theorem finish_bare (mode : CommentMode) :
    mode.bare.finish.toOption = mode.finish.toOption.map (List.map Mark.bare) := by
  cases mode <;> rfl

end CommentMode

/-- Stripping comments goes mark by mark. -/
theorem stripComments_step (mode : CommentMode) (m : Mark) (ms : List Mark) :
    stripComments mode (m :: ms)
      = (stripComments (mode.step m).1 ms).map ((mode.step m).2 ++ ·) := by
  rw [stripComments]
  rfl

/-- Stripping comments does not look at places. -/
theorem stripComments_bare (mode : CommentMode) (ms : List Mark) :
    (stripComments mode.bare (ms.map Mark.bare)).toOption
      = (stripComments mode ms).toOption.map (List.map Mark.bare) := by
  induction ms generalizing mode with
  | nil => exact mode.finish_bare
  | cons m ms ih =>
    rw [List.map_cons, stripComments_step, stripComments_step, toOption_map, toOption_map,
      CommentMode.step_bare, ih]
    simp [Function.comp_def]

/-! ## §4 The scanner without places -/

/-- The lexeme without its place. -/
def Placed.bare (p : Placed) : Placed := (p.1, .nowhere)

/-- Splitting a run of operators does not look at places. -/
theorem splitOperators_bare (passed : Nat) (ms : List Mark) :
    (splitOperators passed (ms.map Mark.bare)).toOption
      = (splitOperators passed ms).toOption.map (List.map Placed.bare) := by
  induction ms generalizing passed with
  | nil => cases passed <;> rfl
  | cons m ms ih =>
    cases passed with
    | succ passed => exact ih passed
    | zero =>
      -- operators are found by characters alone
      have hchars : (ms.map Mark.bare).map Mark.char = ms.map Mark.char := by
        simp [Function.comp_def]
      rw [List.map_cons, splitOperators, splitOperators]
      simp only [List.map_cons, hchars, Mark.bare_char]
      cases Operator.leading? (m.char :: ms.map Mark.char) with
      | none => rfl
      | some op =>
        simp only [toOption_bind, ih]
        cases splitOperators (op.chars.length - 1) ms <;> rfl

/-- What is pending without places. -/
def Pending.bare : Pending → Pending
  | .nothing => .nothing
  | .word cs _ => .word cs .nowhere
  | .number cs pointed _ => .number cs pointed .nowhere
  | .operators ms => .operators (ms.map Mark.bare)
  | .string q cs _ => .string q cs .nowhere

namespace Scan

/-- The scanner without places, on top of lexemes that were complete before. -/
def onto (base : List Placed) (s : Scan) : Scan := ⟨s.done.map Placed.bare ++ base, s.pending.bare⟩

variable (base : List Placed) (s : Scan)

/-- What a flush adds goes behind what was there. -/
theorem flush_onto :
    (s.onto base).flush.toOption = s.flush.toOption.map (onto base) := by
  obtain ⟨done, pending⟩ := s
  cases pending with
  | operators ms =>
    simp only [onto, Pending.bare, flush, ← List.map_reverse, toOption_bind, splitOperators_bare]
    cases splitOperators 0 ms.reverse with
    | error e => rfl
    | ok ops => simp [Except.toOption, pure, Except.pure, onto, Pending.bare]
  | _ => rfl

theorem flushTo_onto (p : Pending) :
    ((s.onto base).flushTo p.bare).toOption = (s.flushTo p).toOption.map (onto base) := by
  simp only [flushTo, toOption_bind, flush_onto]
  cases s.flush <;> rfl

/-- A step in code adds the same behind any lexemes. -/
theorem stepCode_onto (m : Mark) :
    ((s.onto base).stepCode m.bare).toOption = (s.stepCode m).toOption.map (onto base) := by
  have hto := flushTo_onto base s
  have hflush := flush_onto base s
  obtain ⟨done, pending⟩ := s
  unfold stepCode
  -- the class of the mark decides what is done, and that of a bare mark is the same
  rw [Mark.bare_markClass]
  cases m.markClass with
  | letter =>
    cases pending with
    | word cs loc => rfl
    | _ => exact hto (.word [m.char] m.loc)
  | digit =>
    cases pending with
    | word cs loc | number cs pointed loc => rfl
    | _ => exact hto (.number [m.char] false m.loc)
  | operator =>
    cases pending with
    | operators ms => rfl
    | number cs pointed loc =>
      cases hpoint : (m.char == '.' && !pointed) with
      | true =>
        simp only [onto, Pending.bare, Mark.bare_char, hpoint, if_true]
        rfl
      | false =>
        simp only [onto, Pending.bare, Mark.bare_char, hpoint, Bool.false_eq_true, if_false]
        exact hto (.operators [m])
    | _ => exact hto (.operators [m])
  | delimiter f side =>
    simp only [toOption_bind, hflush]
    cases (Scan.mk done pending).flush <;> rfl
  | quote => exact hto (.string m.char [] m.loc)
  | blank => exact hflush
  | other => rfl

/-- A step adds the same behind any lexemes. -/
theorem step_onto (m : Mark) :
    ((s.onto base).step m.bare).toOption = (s.step m).toOption.map (onto base) := by
  have hcode := stepCode_onto base s m
  obtain ⟨done, pending⟩ := s
  -- only inside a string literal is a mark not read as code
  cases pending with
  | string q cs loc =>
    cases hquote : m.isPlain q with
    | true =>
      simp only [step, onto, Pending.bare, Mark.bare_isPlain, hquote, if_true]
      rfl
    | false =>
      simp only [step, onto, Pending.bare, Mark.bare_isPlain, hquote, Bool.false_eq_true, if_false]
      rfl
  | _ => exact hcode

/-- A row of steps adds the same behind any lexemes. -/
theorem foldlM_onto (ms : List Mark) :
    ((ms.map Mark.bare).foldlM step (s.onto base)).toOption
      = (ms.foldlM step s).toOption.map (onto base) := by
  induction ms generalizing s with
  | nil => rfl
  | cons m ms ih =>
    rw [List.map_cons, List.foldlM_cons, List.foldlM_cons, toOption_bind, toOption_bind, step_onto]
    cases s.step m with
    | error e => rfl
    | ok s' => exact ih s'

theorem finish_onto :
    (s.onto base).finish.toOption
      = s.finish.toOption.map fun ps => base.reverse ++ ps.map Placed.bare := by
  have hflush := flush_onto base s
  obtain ⟨done, pending⟩ := s
  cases pending with
  | string q cs loc => rfl
  | _ =>
    simp only [finish, onto, Pending.bare] at hflush ⊢
    rw [toOption_bind, toOption_bind, hflush]
    cases flush _ <;> simp [Except.toOption, pure, Except.pure, onto]

/-- The lexemes at the end of a scan of marks that goes on from a state. -/
def lexemes (s : Scan) (ms : List Mark) : Option (List Lexeme) :=
  (ms.foldlM step s >>= finish).toOption.map (List.map Prod.fst)

/-- The lexemes of marks, behind those that were scanned before. -/
theorem lexemes_onto (ms : List Mark) :
    (s.onto base).lexemes (ms.map Mark.bare)
      = (s.lexemes ms).map (base.reverse.map Prod.fst ++ ·) := by
  unfold lexemes
  rw [toOption_bind, toOption_bind, foldlM_onto]
  cases ms.foldlM step s with
  | error e => rfl
  -- what was complete before stays in front
  | ok s' =>
    have hfinish := s'.finish_onto base
    show ((s'.onto base).finish.toOption.map (List.map Prod.fst)) =
      (s'.finish.toOption.map (List.map Prod.fst)).map _
    rw [hfinish]
    simp [Function.comp_def, Placed.bare]

/-- What is complete already comes first. -/
theorem lexemes_behind (p : Placed) (ms : List Mark) :
    lexemes ⟨[p], .nothing⟩ ms = (lexemes .start ms).map (p.1 :: ·) := by
  have hbare := lexemes_onto [] ⟨[p], .nothing⟩ ms
  have hstart : onto [] ⟨[p], .nothing⟩ = onto [p.bare] .start := rfl
  rw [hstart, lexemes_onto] at hbare
  simpa [Placed.bare] using hbare.symm

end Scan

/-! ## §5 Lexemes -/

/-- The lexemes of marks before signs are marked. -/
def lexemesOf (marks : List Mark) : Option (List Lexeme) :=
  (stripComments .code marks).toOption.bind Scan.start.lexemes

/-- The lexemes of a text before signs are marked. -/
def rawLexemes (source : Text) : Option (List Lexeme) :=
  (Mark.ofText source).toOption.bind lexemesOf

/-- Tokenizing gives the raw lexemes with their signs marked. -/
theorem tokenize_lexemes (source : Text) :
    (tokenize source).toOption.map (List.map Token.lexeme)
      = (rawLexemes source).map (marked false) := by
  have hscan (kept : List Mark) :
      Scan.start.lexemes kept = (scanMarks kept).toOption.map (List.map Prod.fst) := rfl
  unfold tokenize rawLexemes lexemesOf
  cases Mark.ofText source with
  | error e => rfl
  | ok marks =>
    show ((stripComments .code marks >>= fun kept => scanMarks kept >>= _).toOption.map _)
      = ((stripComments .code marks).toOption.bind _).map _
    cases stripComments .code marks with
    | error e => rfl
    | ok kept =>
      show ((scanMarks kept >>= _).toOption.map _) = (Scan.start.lexemes kept).map _
      rw [hscan]
      cases scanMarks kept with
      | error e => rfl
      | ok placed =>
        show some ((numberFrom 0 (markLeading false placed)).map Token.lexeme) = _
        -- numbering and marking touch a lexeme in its fixity only
        rw [numberFrom_lexemes, markLeading_lexemes]
        rfl

/-- A text has tokens where it has lexemes, and they differ in the marks of signs only. -/
theorem tokenize_eq_ok {source : Text} {ls : List Lexeme} :
    (∃ tokens, tokenize source = .ok tokens ∧ tokens.map Token.lexeme = ls) ↔
      ∃ raw, rawLexemes source = some raw ∧ marked false raw = ls := by
  have hlexemes := tokenize_lexemes source
  constructor
  · rintro ⟨tokens, htokens, rfl⟩
    rw [htokens] at hlexemes
    exact Option.map_eq_some_iff.mp hlexemes.symm
  · rintro ⟨raw, hraw, rfl⟩
    rw [hraw] at hlexemes
    obtain ⟨tokens, htokens, heq⟩ := Option.map_eq_some_iff.mp hlexemes
    exact ⟨tokens, toOption_eq_some.mp htokens, heq⟩

/-- Characters that neither open a string nor a comment stay. -/
theorem stripComments_plain {ms : List Mark}
    (h : ∀ m ∈ ms, m.isQuote = false ∧ m.isPlain '/' = false) (more : List Mark) :
    stripComments .code (ms ++ more) = (stripComments .code more).map (ms ++ ·) := by
  induction ms with
  | nil =>
    rw [List.nil_append]
    cases stripComments .code more <;> rfl
  | cons m ms ih =>
    obtain ⟨⟨hquote, hslash⟩, hms⟩ := List.forall_mem_cons.mp h
    have hstep : CommentMode.code.step m = (.code, [m]) := by
      simp [CommentMode.step, CommentMode.stepCode, hquote, hslash]
    rw [List.cons_append, stripComments_step, hstep, ih hms]
    cases stripComments .code more <;> rfl

/-- No character of a symbol that leads is a quote. -/
theorem Symbol.Leads.not_quote {x : Symbol} (h : x.Leads) {c : Char} (hc : c ∈ x.chars) :
    Mark.isQuoteChar c = false := by
  -- a quote is neither a character of words nor one of operators
  cases h with
  | word w hw =>
    obtain ⟨d, more, rfl, hd, hmore⟩ := hw
    rw [Symbol.chars, Text.chars_ofChars] at hc
    refine not_quote_of_wordChar ?_
    rcases List.mem_cons.mp hc with rfl | hc
    · rw [isWordChar, hd, Bool.true_or]
    · exact hmore c hc
  | sign op _ =>
    rw [Symbol.chars, Operator.chars_spelling] at hc
    exact SignClass.not_quote (k := .operator) (Operator.mem_operatorChars hc) (by decide)

/-- Only one leading symbol has a slash. -/
theorem Symbol.Leads.chars_of_slash {x : Symbol} (h : x.Leads) (hslash : '/' ∈ x.chars) :
    x.chars = ['/', '='] := by
  cases h with
  | word w hw =>
    obtain ⟨d, more, rfl, hd, hmore⟩ := hw
    rw [Symbol.chars, Text.chars_ofChars] at hslash
    rcases List.mem_cons.mp hslash with rfl | hmem
    · cases hd
    · cases hmore '/' hmem
  | sign op hop =>
    rw [Symbol.chars, Operator.chars_spelling] at hslash ⊢
    revert hop hslash
    -- of the operators that lead only one is written with a slash
    cases op <;> decide

/-- No comment starts in a leading symbol or at its end. -/
theorem Symbol.Leads.stripComments {x : Symbol} (h : x.Leads) {ms : List Mark}
    (hplain : ∀ m ∈ ms, m.escaped = false) (hchars : ms.map Mark.char = x.chars ++ [' '])
    (more : List Mark) :
    Scriptlet.stripComments .code (ms ++ more)
      = (Scriptlet.stripComments .code more).map (ms ++ ·) := by
  by_cases hslash : '/' ∈ x.chars
  · -- the slash is held back and kept, since an equals sign follows
    rw [h.chars_of_slash hslash] at hchars
    obtain ⟨a, _, rfl, ha, hms⟩ := List.map_eq_cons_iff.mp hchars
    obtain ⟨b, _, rfl, hb, hms⟩ := List.map_eq_cons_iff.mp hms
    obtain ⟨c, _, rfl, hc, hnil⟩ := List.map_eq_cons_iff.mp hms
    obtain rfl := List.map_eq_nil_iff.mp hnil
    obtain ⟨ha', hb', hc'⟩ : a.escaped = false ∧ b.escaped = false ∧ c.escaped = false := by
      simpa using hplain
    have hheld : CommentMode.code.step a = (.slash a, []) := by
      simp [CommentMode.step, CommentMode.stepCode, Mark.isQuote, Mark.isPlain, Mark.isQuoteChar,
        ha, ha']
    have hkept : (CommentMode.slash a).step b = (.code, [a, b]) := by
      simp [CommentMode.step, CommentMode.stepCode, Mark.isQuote, Mark.isPlain, Mark.isQuoteChar,
        hb, hb']
    have hspace : CommentMode.code.step c = (.code, [c]) := by
      simp [CommentMode.step, CommentMode.stepCode, Mark.isQuote, Mark.isPlain, Mark.isQuoteChar,
        hc, hc']
    simp only [List.cons_append, List.nil_append, stripComments_step, hheld, hkept, hspace]
    cases Scriptlet.stripComments .code more <;> rfl
  · refine stripComments_plain (fun m hm => ?_) more
    have hmem : m.char ∈ x.chars ++ [' '] := hchars ▸ List.mem_map_of_mem hm
    rcases List.mem_append.mp hmem with hmem | hmem
    · have hne : m.char ≠ '/' := fun heq => hslash (heq ▸ hmem)
      simp [Mark.isQuote, Mark.isPlain, hplain m hm, h.not_quote hmem, hne]
    · rw [List.mem_singleton] at hmem
      simp [Mark.isQuote, Mark.isPlain, hmem, Mark.isQuoteChar]

/-- No character of a symbol that leads is a backslash. -/
theorem Symbol.Leads.ne_backslash {x : Symbol} (h : x.Leads) : '\\' ∉ x.chars := by
  intro hmem
  cases h with
  | word w hw =>
    obtain ⟨d, more, rfl, hd, hmore⟩ := hw
    rw [Symbol.chars, Text.chars_ofChars] at hmem
    rcases List.mem_cons.mp hmem with rfl | hmem
    · cases hd
    · cases hmore _ hmem
  | sign op _ =>
    rw [Symbol.chars, Operator.chars_spelling] at hmem
    exact SignClass.ne_backslash (k := .operator) (Operator.mem_operatorChars hmem) rfl

/-- Without backslashes nothing is escaped, and each character is a mark. -/
theorem Mark.plain_of_ofGlyphs {loc : Location} {cs : List Char} {ms : List Mark}
    (h : Mark.ofGlyphs loc (glyphsOf cs) = .ok ms) (hslash : '\\' ∉ cs) :
    (∀ m ∈ ms, m.escaped = false) ∧ ms.map Mark.char = cs := by
  have hraw : cs = ms.flatMap Mark.raw :=
    List.map_injective_iff.mpr (fun _ _ => Glyph.char.inj) (Mark.raw_of_ofGlyphs h).1
  -- an escaped mark would have a backslash before it
  have hplain : ∀ m ∈ ms, m.escaped = false := by
    intro m hm
    refine Bool.eq_false_iff.mpr fun he => hslash ?_
    rw [hraw]
    refine List.mem_flatMap.mpr ⟨m, hm, ?_⟩
    simp [Mark.raw, he]
  refine ⟨hplain, ?_⟩
  rw [hraw, List.map_eq_flatMap]
  exact List.flatMap_congr fun m hm => (Mark.raw_of_plain (hplain m hm)).symm

/-- The lexemes of marks do not depend on where the marks stand. -/
theorem lexemesOf_bare (ms : List Mark) : lexemesOf (ms.map Mark.bare) = lexemesOf ms := by
  have hkept : (stripComments .code (ms.map Mark.bare)).toOption = _ := stripComments_bare .code ms
  unfold lexemesOf
  rw [hkept, Option.bind_map]
  refine congrArg _ (funext fun kept => ?_)
  have hbare : Scan.start.lexemes (kept.map Mark.bare) = _ := Scan.lexemes_onto [] .start kept
  simpa using hbare

/-- Marks that the scanner reads as one lexeme, with nothing pending behind it. -/
theorem lexemesOf_append {ms : List Mark} {p : Placed} (more : List Mark)
    (hkept : stripComments .code (ms ++ more) = (stripComments .code more).map (ms ++ ·))
    (hscan : ms.foldlM Scan.step .start = .ok ⟨[p], .nothing⟩) :
    lexemesOf (ms ++ more) = (lexemesOf more).map (p.1 :: ·) := by
  have hread (kept : List Mark) :
      Scan.start.lexemes (ms ++ kept) = (Scan.start.lexemes kept).map (p.1 :: ·) := by
    -- the scan goes on behind the one lexeme as it would from the start
    rw [← Scan.lexemes_behind]
    unfold Scan.lexemes
    rw [List.foldlM_append, hscan]
    rfl
  unfold lexemesOf
  rw [hkept, toOption_map]
  cases (stripComments .code more).toOption with
  | none => rfl
  | some kept => exact hread kept

/-- **Lexemes behind a leading symbol**: it is one lexeme, and behind the space the text is read as
by itself. -/
theorem rawLexemes_before {x : Symbol} (h : x.Leads) (t : Text) :
    rawLexemes (x.before t) = (rawLexemes t).map (x.lexeme :: ·) := by
  obtain ⟨mid, s, hgoes, hbehind⟩ := goes_symbol h.writable [] .start
  obtain ⟨at_, hspace⟩ := hbehind.space mid
  obtain ⟨ms, hmarks, hfold, -⟩ := hgoes.trans hspace
  -- the marks are those of the symbol and the space, none of them escaped
  have halone : Mark.ofGlyphs .start (glyphsOf (x.chars ++ [' '])) = .ok ms := by
    simpa [Mark.ofGlyphs, Except.map] using hmarks []
  obtain ⟨hplain, hchars⟩ := Mark.plain_of_ofGlyphs halone (by simpa using h.ne_backslash)
  have hone (more : List Mark) : lexemesOf (ms ++ more) = (lexemesOf more).map (x.lexeme :: ·) :=
    lexemesOf_append more (h.stripComments hplain hchars more) hfold
  have hplaces := Mark.ofGlyphs_bare (mid.after (.char ' ')) .start t.glyphs
  have htext : Mark.ofText (x.before t)
      = (Mark.ofGlyphs (mid.after (.char ' ')) t.glyphs).map (ms ++ ·) := by
    rw [Mark.ofText, x.glyphs_before, ← hmarks]
    simp
  unfold rawLexemes
  rw [htext, toOption_map, Option.bind_map]
  have hsame : (Mark.ofGlyphs (mid.after (.char ' ')) t.glyphs).toOption.bind lexemesOf
      = (Mark.ofText t).toOption.bind lexemesOf := by
    have hbind := congrArg (Option.bind · lexemesOf) hplaces
    simp only [Option.bind_map, Function.comp_def, lexemesOf_bare] at hbind
    exact hbind
  rw [← hsame, Option.map_bind]
  exact congrArg _ (funext hone)

/-! ## §6 Texts behind several symbols -/

/-- The text with symbols in front of it, each with a space. -/
def Text.behind (xs : List Symbol) (t : Text) : Text := xs.foldr Symbol.before t

section

variable {xs : List Symbol} {source : Text}

/-- Symbols that lead are scanned as themselves in front of any source. -/
theorem scanTerminals_behind (h : ∀ x ∈ xs, x.Leads) {s : Stream}
    (hs : scanTerminals source = .ok s) :
    ∃ s', scanTerminals (Text.behind xs source) = .ok s' ∧ s'.left 0 = xs ++ s.left 0 := by
  have hsource : readSymbols 0 source.glyphs = some (s.left 0) :=
    scanTerminals_eq_ok.mp ⟨s, hs, rfl⟩
  refine scanTerminals_eq_ok.mpr ?_
  induction xs with
  | nil => exact hsource
  | cons x xs ih =>
    obtain ⟨hx, hxs⟩ := List.forall_mem_cons.mp h
    show readSymbols 0 (x.before (Text.behind xs source)).glyphs = _
    rw [readSymbols_before hx, ih hxs]
    rfl

/-- Symbols that lead are tokenized as themselves in front of any source. -/
theorem rawLexemes_behind (h : ∀ x ∈ xs, x.Leads) :
    rawLexemes (Text.behind xs source)
      = (rawLexemes source).map (xs.map Symbol.lexeme ++ ·) := by
  induction xs with
  | nil =>
    show rawLexemes source = (rawLexemes source).map fun raw => raw
    rw [Option.map_id']
  | cons x xs ih =>
    obtain ⟨hx, hxs⟩ := List.forall_mem_cons.mp h
    show rawLexemes (x.before (Text.behind xs source)) = _
    rw [rawLexemes_before hx, ih hxs, Option.map_map]
    rfl

end

end Scriptlet
