import Scriptlet.Proofs.Pieces

/-!
# The two scanners agree

The tokenizer removes comments before it looks for tokens; the scanner for terminals drops them
between terminals. Both cut a source into the same words, numbers, strings and operators, at the
same places, as long as no comment has a backslash and none stands where a terminal would go on
without it. Both conditions are needed: a backslash takes the character behind it along, the end of
a line comment too, and what comments leave behind is joined.

The proof follows the pieces of the scanner for terminals. Before each piece the tokenizer is
outside comments and string literals and holds what it has not completed, which are the terminals
right before; it reads the piece and then holds the next terminal.

## Contents

- §1 tokens and terminals that agree
- §2 reading on
- §3 comments are passed over
- §4 what is held
- §5 reading one piece
- §6 whole sources
-/

namespace Scriptlet

/-! ## §1 Tokens and terminals that agree -/

/-- The kinds of terminals that a kind of lexemes corresponds to. -/
def Kind.terminals : Kind → List TerminalKind
  | .name => [.ident]
  | .number => [.number]
  | .string => [.string]
  | .operator | .delimiter => [.operator, .punct]

/-- The lexeme at the place is the terminal: kinds correspond, and so do the texts, where a string
literal stands for its contents. -/
structure Lexeme.Agrees (x : Lexeme) (loc : Location) (t : Terminal) : Prop where
  place : loc = t.loc
  kind : t.kind ∈ x.kind.terminals
  text : x.value = if t.kind = .string then unquote t.text else t.text

/-- The lexemes and the terminals agree one by one. -/
abbrev AgreeAll (ps : List Placed) (ts : List Terminal) : Prop :=
  List.Forall₂ (fun p t => p.1.Agrees p.2 t) ps ts

theorem Lexeme.ofWord_agrees (t : Text) (loc : Location) :
    (Lexeme.ofWord t).Agrees loc ⟨.ident, t, loc⟩ :=
  ⟨rfl, by simp [Lexeme.kind_ofWord, Kind.terminals], Lexeme.value_ofWord t⟩

theorem markLeading_agrees {afterOperand : Bool} {ps : List Placed} {ts : List Terminal}
    (h : AgreeAll ps ts) : AgreeAll (markLeading afterOperand ps) ts :=
  forall₂_markLeading (fun _ _ _ _ _ hx => ⟨hx.place, hx.kind, hx.text⟩) h afterOperand

theorem numberFrom_agrees {i : Nat} {ps : List Placed} {ts : List Terminal} (h : AgreeAll ps ts) :
    List.Forall₂ (fun x t => x.lexeme.Agrees x.loc t) (numberFrom i ps) ts :=
  forall₂_numberFrom h i

/-! ## §2 Reading on -/

/-- From the mode, the place and the state on, the tokenizer reads the characters and ends with the
lexemes. -/
def Reads (mode : CommentMode) (loc : Location) (s : Scan) (cs : List Char)
    (placed : List Placed) : Prop :=
  ∃ marks kept, Mark.ofGlyphs loc (glyphsOf cs) = .ok marks ∧
    stripComments mode marks = .ok kept ∧ (kept.foldlM Scan.step s >>= Scan.finish) = .ok placed

namespace Reads

variable {mode : CommentMode} {loc : Location} {s : Scan} {c q : Char} {cs w : List Char}
  {placed : List Placed}

theorem mark {m : Mark} {marks kept : List Mark} {loc' : Location}
    (hmarks : Mark.ofGlyphs loc' (glyphsOf cs) = .ok marks)
    (hkept : stripComments mode (m :: marks) = .ok kept)
    (hfold : (kept.foldlM Scan.step s >>= Scan.finish) = .ok placed) :
    ∃ s', (mode.step m).2.foldlM Scan.step s = .ok s' ∧
      Reads (mode.step m).1 loc' s' cs placed := by
  obtain ⟨more, hmore, rfl⟩ := stripComments_cons hkept
  rw [List.foldlM_append, bind_assoc] at hfold
  obtain ⟨s', hs', hrest⟩ := bind_eq_ok.mp hfold
  exact ⟨s', hs', marks, more, hmarks, hmore, hrest⟩

/-- A character that escapes nothing is one mark. -/
theorem plain (h : Reads mode loc s (c :: cs) placed) (hc : c ≠ '\\') :
    ∃ s', (mode.step ⟨c, false, loc⟩).2.foldlM Scan.step s = .ok s' ∧
      Reads (mode.step ⟨c, false, loc⟩).1 (loc.after (.char c)) s' cs placed := by
  obtain ⟨marks, kept, hmarks, hkept, hfold⟩ := h
  rw [glyphsOf, List.map_cons, Mark.ofGlyphs] at hmarks
  · obtain ⟨more, hmore, heq⟩ := bind_eq_ok.mp hmarks
    cases heq
    exact mark hmore hkept hfold
  · exact hc

/-- A backslash and the character behind it are one mark. -/
theorem escaped (h : Reads mode loc s ('\\' :: c :: cs) placed) :
    ∃ s', (mode.step ⟨c, true, loc⟩).2.foldlM Scan.step s = .ok s' ∧
      Reads (mode.step ⟨c, true, loc⟩).1 ((loc.after (.char '\\')).after (.char c)) s' cs
        placed := by
  obtain ⟨marks, kept, hmarks, hkept, hfold⟩ := h
  rw [glyphsOf, List.map_cons, List.map_cons, Mark.ofGlyphs] at hmarks
  obtain ⟨more, hmore, heq⟩ := bind_eq_ok.mp hmarks
  cases heq
  exact mark hmore hkept hfold

/-- A slash that opens no comment is read like any other character. -/
theorem slash {m : Mark} (h : Reads (.slash m) loc s cs placed)
    (hcs : ∀ c, cs.head? = some c → c ≠ '/' ∧ c ≠ '*') :
    ∃ s', s.step m = .ok s' ∧ Reads .code loc s' cs placed := by
  obtain ⟨marks, kept, hmarks, hkept, hfold⟩ := h
  obtain ⟨hglyphs, _⟩ := Mark.raw_of_ofGlyphs hmarks
  -- the slash is kept, and the rest is what is kept in code
  have hsplit : ∃ more, kept = m :: more ∧ stripComments .code marks = .ok more := by
    cases marks with
    | nil =>
      cases hkept
      exact ⟨[], rfl, rfl⟩
    | cons n marks =>
      have hchar : n.escaped = false → cs.head? = some n.char := by
        intro he
        rw [List.flatMap_cons, Mark.raw_of_plain he] at hglyphs
        cases cs with
        | nil => cases hglyphs
        | cons c cs =>
          cases (List.cons.inj hglyphs).1
          rfl
      have hopens : n.isPlain '/' = false ∧ n.isPlain '*' = false := by
        cases he : n.escaped with
        | true => simp [Mark.isPlain, he]
        | false => simpa [Mark.isPlain, he] using hcs n.char (hchar he)
      obtain ⟨more, hmore, rfl⟩ := stripComments_cons hkept
      have hstep : (CommentMode.slash m).step n
          = ((CommentMode.stepCode n).1, m :: (CommentMode.stepCode n).2) := by
        simp [CommentMode.step, hopens]
      rw [hstep] at hmore ⊢
      refine ⟨(CommentMode.stepCode n).2 ++ more, rfl, ?_⟩
      have hcode : stripComments .code (n :: marks) = (do
          let more ← stripComments (CommentMode.stepCode n).1 marks
          return (CommentMode.stepCode n).2 ++ more) := rfl
      rw [hcode, hmore]
      rfl
  obtain ⟨more, rfl, hmore⟩ := hsplit
  rw [List.foldlM_cons, bind_assoc] at hfold
  obtain ⟨s', hs', hrest⟩ := bind_eq_ok.mp hfold
  exact ⟨s', hs', marks, more, hmarks, hmore, hrest⟩

/-- Outside comments a character that opens neither a comment nor a literal goes to the scanner. -/
theorem code (h : Reads .code loc s (c :: cs) placed) (hc : c ≠ '\\')
    (hquote : Mark.isQuoteChar c = false) (hcomment : opensComment (c :: cs) = false) :
    ∃ s', s.step ⟨c, false, loc⟩ = .ok s' ∧ Reads .code (loc.after (.char c)) s' cs placed := by
  obtain ⟨t, ht, hrest⟩ := h.plain hc
  -- a slash is held back, and what follows it opens no comment
  by_cases hslash : c = '/'
  · subst hslash
    cases ht
    apply hrest.slash
    intro d hd
    obtain ⟨more, rfl⟩ := List.head?_eq_some_iff.mp hd
    constructor <;> rintro rfl <;> simp [opensComment, List.isPrefixOf] at hcomment
  · have hcode : CommentMode.stepCode ⟨c, false, loc⟩ = (.code, [⟨c, false, loc⟩]) := by
      simp [CommentMode.stepCode, Mark.isQuote, Mark.isPlain, hquote, hslash]
    rw [CommentMode.step, hcode] at ht hrest
    simp only [List.foldlM_cons, List.foldlM_nil, bind_pure] at ht
    exact ⟨t, ht, hrest⟩

/-! ## §3 Comments are passed over -/

/-- A comment to the end of the line. -/
theorem line (h : Reads .line loc s (w ++ cs) placed) (hw : '\n' ∉ w ∧ '\\' ∉ w)
    (hcs : ∀ c, cs.head? = some c → c = '\n') : Reads .code (placeBehind loc w) s cs placed := by
  induction w generalizing loc with
  | nil =>
    obtain ⟨marks, kept, hmarks, hkept, hfold⟩ := h
    refine ⟨marks, kept, hmarks, ?_, hfold⟩
    rw [← hkept]
    -- the end of the line is kept in code as it is behind the comment
    cases cs with
    | nil => cases hmarks; rfl
    | cons c cs =>
      cases hcs c rfl
      obtain ⟨more, _, heq⟩ := bind_eq_ok.mp hmarks
      cases heq
      rfl
  | cons c w ih =>
    simp only [List.mem_cons, not_or] at hw
    obtain ⟨t, ht, hrest⟩ := h.plain (Ne.symm hw.2.1)
    have hstep : CommentMode.step .line ⟨c, false, loc⟩ = (.line, []) := by
      simp [CommentMode.step, Mark.isPlain, Ne.symm hw.1.1]
    rw [hstep] at ht hrest
    cases ht
    exact ih hrest ⟨hw.1.2, hw.2.2⟩

end Reads

theorem blockEnd?_cons_cons (a b : Char) (cs : List Char) :
    blockEnd? (glyphsOf (a :: b :: cs))
      = if a = '*' ∧ b = '/' then some 2 else (blockEnd? (glyphsOf (b :: cs))).map (· + 1) := by
  simp only [glyphsOf, List.map_cons, blockEnd?, Glyph.is, char_beq, Bool.and_eq_true, beq_iff_eq]

/-- A block comment ends behind `n` characters; `star` if one stands right before them. -/
def ClosesIn (star : Bool) (cs : List Char) (n : Nat) : Prop :=
  if star then blockEnd? (glyphsOf ('*' :: cs)) = some (n + 1) else blockEnd? (glyphsOf cs) = some n

theorem closesIn_of_blockEnd? {c : Char} {cs : List Char} {n : Nat}
    (h : blockEnd? (glyphsOf (c :: cs)) = some n) : ∃ k, n = k + 1 ∧ ClosesIn (c == '*') cs k := by
  cases cs with
  | nil => cases h
  | cons d cs =>
    -- only a star can be the start of the end
    by_cases hc : c = '*'
    · subst hc
      have hpos : ∃ k, n = k + 1 := by
        rw [blockEnd?_cons_cons] at h
        split at h
        · cases h
          exact ⟨1, rfl⟩
        · obtain ⟨k, _, rfl⟩ := Option.map_eq_some_iff.mp h
          exact ⟨k, rfl⟩
      obtain ⟨k, rfl⟩ := hpos
      exact ⟨k, rfl, h⟩
    · rw [blockEnd?_cons_cons, if_neg (by simp [hc])] at h
      obtain ⟨k, hk, rfl⟩ := Option.map_eq_some_iff.mp h
      refine ⟨k, rfl, ?_⟩
      rw [ClosesIn, beq_eq_false_iff_ne.mpr hc]
      exact hk

namespace Reads

variable {loc : Location} {s : Scan} {cs w : List Char} {placed : List Placed}

/-- A block comment is passed over up to its end. -/
theorem block {opened : Location} {star : Bool} {n : Nat}
    (h : Reads (if star then .blockStar opened else .block opened) loc s cs placed)
    (hend : ClosesIn star cs n) (hslash : '\\' ∉ cs.take n) :
    Reads .code (placeBehind loc (cs.take n)) s (cs.drop n) placed := by
  induction cs generalizing loc star n with
  | nil => cases star <;> cases hend
  | cons c cs ih =>
    by_cases hclose : star = true ∧ c = '/'
    · obtain ⟨rfl, rfl⟩ := hclose
      obtain rfl : n = 1 := by
        rw [ClosesIn, if_pos rfl, blockEnd?_cons_cons, if_pos ⟨rfl, rfl⟩] at hend
        have hend := Option.some.inj hend
        omega
      obtain ⟨t, ht, hrest⟩ := h.plain (by decide)
      cases ht
      exact hrest
    · -- nothing ends here, and what is read is a star or not
      have hend : blockEnd? (glyphsOf (c :: cs)) = some n := by
        cases star with
        | false => exact hend
        | true =>
          rw [ClosesIn, if_pos rfl, blockEnd?_cons_cons, if_neg (by simpa using hclose)] at hend
          obtain ⟨m, hm, heq⟩ := Option.map_eq_some_iff.mp hend
          rw [hm, Nat.succ.inj heq]
      obtain ⟨k, rfl, hcloses⟩ := closesIn_of_blockEnd? hend
      rw [List.take_succ_cons, List.mem_cons, not_or] at hslash
      obtain ⟨t, ht, hrest⟩ := h.plain (Ne.symm hslash.1)
      have hstep : (if star then CommentMode.blockStar opened else .block opened).step
          ⟨c, false, loc⟩ = (if c == '*' then .blockStar opened else .block opened, []) := by
        cases star with
        | false => simp [CommentMode.step, Mark.isPlain]
        | true =>
          have hc : c ≠ '/' := by simpa using hclose
          simp [CommentMode.step, Mark.isPlain, hc]
      rw [hstep] at ht hrest
      cases ht
      exact ih hrest hcloses hslash.2

theorem opensLine (h : Reads .code loc s ('/' :: '/' :: cs) placed) :
    Reads .line (placeBehind loc ['/', '/']) s cs placed := by
  obtain ⟨t, ht, hslash⟩ := h.plain (by decide)
  cases ht
  obtain ⟨t, ht, hline⟩ := hslash.plain (by decide)
  cases ht
  exact hline

theorem opensBlock (h : Reads .code loc s ('/' :: '*' :: cs) placed) :
    Reads (.block loc) (placeBehind loc ['/', '*']) s cs placed := by
  obtain ⟨t, ht, hslash⟩ := h.plain (by decide)
  cases ht
  obtain ⟨t, ht, hblock⟩ := hslash.plain (by decide)
  cases ht
  exact hblock

/-- A comment without backslashes is passed over, whatever is pending. -/
theorem comment {n : Nat} (h : Reads .code loc s cs placed)
    (hlength : commentLength? (glyphsOf cs) = some n) (hslash : '\\' ∉ cs.take n) :
    Reads .code (placeBehind loc (cs.take n)) s (cs.drop n) placed := by
  unfold commentLength? at hlength
  rw [startsWithChars_glyphsOf, startsWithChars_glyphsOf] at hlength
  split at hlength
  · next hopen =>
    obtain ⟨rest, rfl⟩ := List.isPrefixOf_iff_prefix.mp hopen
    -- the comment is what stands before the end of the line
    obtain ⟨body, behind, rfl, hbody, hbehind⟩ := exists_run (fun c => c != '\n') rest
    have hrun : ((glyphsOf (['/', '/'] ++ body ++ behind)).takeWhile fun g => !g.is '\n')
        = glyphsOf (['/', '/'] ++ body) := by
      have hline : ((fun g => !g.is '\n') ∘ Glyph.char) = fun c => c != '\n' := by
        funext c
        simp only [Function.comp_apply, Glyph.is, char_beq]
        rfl
      rw [glyphsOf, List.takeWhile_map, hline, takeWhile_run _ hbehind]
      simpa using hbody
    rw [← List.append_assoc] at hlength hslash h ⊢
    rw [hrun, List.length_map, Option.some.injEq] at hlength
    rw [← hlength, List.take_left] at hslash ⊢
    rw [List.drop_left, placeBehind_append]
    simp only [List.mem_append, not_or] at hslash
    apply line h.opensLine
    · exact ⟨fun hmem => by simpa using hbody _ hmem, hslash.2⟩
    · intro c hc
      simpa using hbehind c hc
  · split at hlength
    · next hopen =>
      obtain ⟨rest, rfl⟩ := List.isPrefixOf_iff_prefix.mp hopen
      obtain ⟨m, hend, rfl⟩ := Option.map_eq_some_iff.mp hlength
      have hend : ClosesIn false rest m := hend
      have hslash : '\\' ∉ rest.take m := fun hmem => hslash (by simp [hmem])
      have hinside : Reads (if false then .blockStar loc else .block loc)
        (placeBehind loc ['/', '*']) s rest placed := h.opensBlock
      have hdone := hinside.block hend hslash
      exact hdone
    · cases hlength

end Reads

/-! ## §4 What is held -/

/-- What is pending holds the terminals that are not complete, the last of which has the
characters. -/
inductive Held : Pending → List Char → List Terminal → Prop where
  | nothing (last : List Char) : Held .nothing last []
  | word (w : List Char) (loc : Location) (h : IsWord w.reverse) :
      Held (.word w loc) w.reverse [⟨.ident, Text.ofChars w.reverse, loc⟩]
  | number (w : List Char) (pointed : Bool) (loc : Location) (h : Numeral w.reverse)
      (hpoint : pointed = true ↔ '.' ∈ w) :
      Held (.number w pointed loc) w.reverse [⟨.number, Text.ofChars w.reverse, loc⟩]
  | operators (marks : List Mark) (ops : List Placed) (op : Operator) (fixity : Fixity)
      (loc : Location) (ts : List Terminal) (hsplit : splitOperators 0 marks.reverse = .ok ops)
      (hlast : ops.getLast? = some (.operator op fixity, loc)) (hop : op ∉ foreignOperators)
      (h : AgreeAll ops ts) : Held (.operators marks) op.chars ts

/-- The character does not continue what is pending, of which the last characters are given. -/
def Pending.StopsBefore (last : List Char) (c : Char) : Pending → Prop
  | .nothing | .string _ _ _ => True
  | .word _ _ => isWordChar c = false
  | .number w _ _ => isDecimalDigit c = false ∧ (c = '.' → '.' ∈ w)
  | .operators _ => Operator.leading? (last ++ [c]) = Operator.leading? last

namespace Held

variable {s : Scan} {p : Pending} {last : List Char} {ts : List Terminal} {c : Char}

theorem stopsBefore (h : Held p last ts) (hstop : goesOn (glyphsOf last) (.char c) = false) :
    p.StopsBefore last c := by
  cases h with
  | nothing => trivial
  | word w loc h => exact not_wordChar_of_goesOn h hstop
  | number w pointed loc h hpoint =>
    obtain ⟨hdigit, hmem⟩ := not_digit_of_goesOn h hstop
    exact ⟨hdigit, fun hc => List.mem_reverse.mp (hmem hc)⟩
  | operators marks ops op fixity loc _ hsplit hlast hop h =>
    rw [Pending.StopsBefore, leading?_of_goesOn hop hstop, op.leading?_chars]

/-- What is held is completed. -/
theorem flush (h : Held s.pending last ts) :
    ∃ ps, AgreeAll ps ts ∧ s.flush = .ok ⟨ps.reverse ++ s.done, .nothing⟩ := by
  obtain ⟨done, pending⟩ := s
  -- each kind that is held becomes one lexeme, and operators as many as they are split into
  cases h with
  | nothing => exact ⟨[], .nil, rfl⟩
  | word w loc h =>
    exact ⟨[(.ofWord (Text.ofChars w.reverse), loc)], .cons (Lexeme.ofWord_agrees _ loc) .nil, rfl⟩
  | number w pointed loc h hpoint =>
    refine ⟨[(.number (Text.ofChars w.reverse), loc)], .cons ⟨rfl, ?_, rfl⟩ .nil, rfl⟩
    simp [Lexeme.kind, Kind.terminals]
  | operators marks ops op fixity loc _ hsplit hlast hop h =>
    refine ⟨ops, h, ?_⟩
    simp only [Scan.flush, hsplit]
    rfl

theorem flushTo (h : Held s.pending last ts) (p : Pending) :
    ∃ ps, AgreeAll ps ts ∧ s.flushTo p = .ok ⟨ps.reverse ++ s.done, p⟩ := by
  obtain ⟨ps, hps, hflush⟩ := h.flush
  refine ⟨ps, hps, ?_⟩
  rw [Scan.flushTo, hflush]
  rfl

theorem step_eq (h : Held s.pending last ts) (m : Mark) : s.step m = s.stepCode m := by
  refine Scan.step_eq (fun q value loc hp => ?_) m
  rw [hp] at h
  cases h

end Held

/-- An operator is found by its first two characters. -/
theorem leading?_two (a b : Char) (cs : List Char) :
    Operator.leading? (a :: b :: cs) = Operator.leading? [a, b] := by
  unfold Operator.leading?
  congr 1
  funext op
  cases op <;> simp [Operator.chars, List.isPrefixOf]

/-- Whether an operator goes on is seen from the character behind it. -/
theorem leading?_next {op : Operator} {c : Char} {cs : List Char}
    (h : Operator.leading? (op.chars ++ c :: cs) = some op) :
    Operator.leading? (op.chars ++ [c]) = some op := by
  obtain ⟨a, more, hchars⟩ := List.exists_cons_of_ne_nil op.chars_ne_nil
  rw [hchars] at h ⊢
  -- longest match looks at two characters, so more of them do not matter
  cases more with
  | nil =>
    rw [List.singleton_append, leading?_two] at h
    exact h
  | cons b more =>
    rw [List.cons_append, List.cons_append, leading?_two] at h ⊢
    exact h

/-- The first operator of a run is that of its first part, if a single mark does not go on. -/
theorem leading?_append_marks {m : Mark} {ms ns : List Mark} {op : Operator}
    (hop : Operator.leading? ((m :: ms).map Mark.char) = some op)
    (hnext : ms = [] → ∀ n, ns.head? = some n →
      Operator.leading? (op.chars ++ [n.char]) = some op) :
    Operator.leading? ((m :: (ms ++ ns)).map Mark.char) = some op := by
  cases ms with
  | cons k ms =>
    -- two marks show the operator
    rw [List.map_cons, List.map_cons, leading?_two] at hop
    rw [List.cons_append, List.map_cons, List.map_cons, leading?_two, hop]
  | nil =>
    cases ns with
    | nil => exact hop
    | cons n ns =>
      -- a single mark is the whole operator
      obtain ⟨behind, hbehind⟩ := Operator.prefix_of_leading? hop
      have hchars : op.chars = [m.char] :=
        List.IsPrefix.eq_of_length_le ⟨behind, hbehind⟩ (List.length_pos_iff.mpr op.chars_ne_nil)
      have hstop := hnext rfl n rfl
      rw [hchars] at hstop
      rw [List.nil_append, List.map_cons, List.map_cons, leading?_two]
      exact hstop

/-- A run is split like its first part, if the last operator of that does not go on. -/
theorem splitOperators_append {ms ns : List Mark} {ops : List Placed}
    (h : splitOperators 0 ms = .ok ops)
    (hlast : ∀ op fixity loc n, ops.getLast? = some (.operator op fixity, loc) → ns.head? = some n →
      Operator.leading? (op.chars ++ [n.char]) = some op) :
    splitOperators 0 (ms ++ ns) = (splitOperators 0 ns).map (ops ++ ·) := by
  match ms, h with
  | [], h =>
    cases h
    rw [List.nil_append]
    cases hns : splitOperators 0 ns <;> rfl
  | m :: ms, h =>
    rw [splitOperators] at h
    split at h
    · cases h
    · next op hop =>
      obtain ⟨more, hmore, heq⟩ := bind_eq_ok.mp h
      cases heq
      obtain ⟨behind, hbehind⟩ := Operator.prefix_of_leading? hop
      have hlength : op.chars.length - 1 ≤ ms.length := by
        have hle := congrArg List.length hbehind
        simp only [List.length_append, List.length_map, List.length_cons] at hle
        omega
      have hlead := leading?_append_marks hop fun hms n hn => by
        subst hms
        cases hmore
        exact hlast op op.fixity m.loc n rfl hn
      rw [splitOperators_passed] at hmore
      have hshorter : (ms.drop (op.chars.length - 1)).length < (m :: ms).length := by
        rw [List.length_drop, List.length_cons]
        omega
      have hrest := splitOperators_append hmore fun op' fixity loc n hop' hn =>
        hlast op' fixity loc n (by
          rw [List.getLast?_cons, hop']
          rfl) hn
      rw [List.cons_append, splitOperators, hlead]
      simp only
      rw [splitOperators_passed, List.drop_append_of_le_length hlength, hrest]
      cases splitOperators 0 ns <;> rfl
termination_by ms.length

/-! ## §5 Reading one piece -/

/-- The scanner goes on from holding some terminals to holding others: those it completed and those
it holds then are those it held before and the new ones. -/
def GoesOn (s : Scan) (ts new : List Terminal) (s' : Scan) (ts' : List Terminal) : Prop :=
  ∃ ps us, s'.done = ps.reverse ++ s.done ∧ AgreeAll ps us ∧ us ++ ts' = ts ++ new

/-- The tokenizer reads the characters of the terminal, holds it then, and does not go on with it
at the characters that follow. -/
def ReadsTerminal (s : Scan) (ts : List Terminal) (new : Terminal) (w cs : List Char)
    (placed : List Placed) : Prop :=
  ∃ s' ts', Held s'.pending w ts' ∧ (∀ c, cs.head? = some c → s'.pending.StopsBefore w c) ∧
    GoesOn s ts [new] s' ts' ∧ Reads .code (placeBehind new.loc w) s' cs placed

namespace Reads

variable {loc : Location} {s : Scan} {c q : Char} {cs w last : List Char} {placed : List Placed}
  {ts : List Terminal}

theorem wordChar (h : Reads .code loc s (c :: cs) placed) (hc : isWordChar c = true) :
    ∃ s', s.step ⟨c, false, loc⟩ = .ok s' ∧ Reads .code (loc.after (.char c)) s' cs placed := by
  have hslash : c ≠ '/' := ne_of_wordChar (k := .operator) hc (by decide)
  have hbackslash : c ≠ '\\' := by
    rintro rfl
    cases hc
  exact h.code hbackslash (not_quote_of_wordChar hc) (opensComment_of_ne hslash)

/-- Characters that each extend what is pending. -/
theorem extend {done : List Placed} {f : List Char → Pending} {v : List Char}
    (hw : ∀ c ∈ w, isWordChar c = true ∧ ∀ v loc,
      (Scan.mk done (f v)).step ⟨c, false, loc⟩ = .ok ⟨done, f (c :: v)⟩)
    (h : Reads .code loc ⟨done, f v⟩ (w ++ cs) placed) :
    Reads .code (placeBehind loc w) ⟨done, f (w.reverse ++ v)⟩ cs placed := by
  induction w generalizing loc v with
  | nil => exact h
  | cons c w ih =>
    -- each character is read as code and extends what is pending
    obtain ⟨⟨hc, hstep⟩, hw⟩ := List.forall_mem_cons.mp hw
    obtain ⟨s', hs', hrest⟩ := h.wordChar hc
    rw [hstep v loc] at hs'
    cases hs'
    rw [List.reverse_cons, List.append_assoc]
    exact ih hw hrest

theorem wordChars {done : List Placed} {v : List Char} {at_ : Location}
    (hw : ∀ c ∈ w, isWordChar c = true)
    (h : Reads .code loc ⟨done, .word v at_⟩ (w ++ cs) placed) :
    Reads .code (placeBehind loc w) ⟨done, .word (w.reverse ++ v) at_⟩ cs placed := by
  refine extend (f := fun v => .word v at_) (fun c hc => ⟨hw c hc, fun v loc => ?_⟩) h
  rcases Bool.or_eq_true_iff.mp (hw c hc) with hstart | hdigit
  · simp [Scan.step, Scan.stepCode, markClass_wordStart hstart]
  · simp [Scan.step, Scan.stepCode, markClass_digit hdigit]

theorem digits {done : List Placed} {v : List Char} {pointed : Bool} {at_ : Location}
    (hw : ∀ c ∈ w, isDecimalDigit c = true)
    (h : Reads .code loc ⟨done, .number v pointed at_⟩ (w ++ cs) placed) :
    Reads .code (placeBehind loc w) ⟨done, .number (w.reverse ++ v) pointed at_⟩ cs placed := by
  refine extend (f := fun v => .number v pointed at_) (fun c hc => ⟨?_, fun v loc => ?_⟩) h
  · rw [isWordChar, hw c hc, Bool.or_true]
  · simp [Scan.step, Scan.stepCode, markClass_digit (hw c hc)]

theorem word (h : Reads .code loc s (w ++ cs) placed) (hheld : Held s.pending last ts)
    (hstop : ∀ c, w.head? = some c → s.pending.StopsBefore last c) (hw : IsWord w)
    (hnext : ∀ c, cs.head? = some c → isWordChar c = false) :
    ReadsTerminal s ts ⟨.ident, Text.ofChars w, loc⟩ w cs placed := by
  have hword := hw
  obtain ⟨c, more, rfl, hc, hmore⟩ := hw
  have hstop := hstop c rfl
  obtain ⟨t, ht, hrest⟩ := h.wordChar (by rw [isWordChar, hc, Bool.true_or])
  -- a letter ends what is pending, since it does not go on with it
  have hstart : s.step ⟨c, false, loc⟩ = s.flushTo (.word [c] loc) := by
    rw [hheld.step_eq, Scan.stepCode, markClass_wordStart hc]
    cases hp : s.pending with
    | word v at_ =>
      rw [hp, Pending.StopsBefore] at hstop
      simp [isWordChar, hc] at hstop
    | _ => rfl
  obtain ⟨ps, hps, hflush⟩ := hheld.flushTo (.word [c] loc)
  rw [hstart, hflush] at ht
  cases ht
  have hread := hrest.wordChars hmore
  have hreverse : (more.reverse ++ [c]).reverse = c :: more := by simp
  have hheld := Held.word (more.reverse ++ [c]) loc (hreverse ▸ hword)
  rw [hreverse] at hheld
  exact ⟨⟨ps.reverse ++ s.done, .word (more.reverse ++ [c]) loc⟩, _, hheld, hnext,
    ⟨ps, ts, rfl, hps, rfl⟩, hread⟩

theorem wholeNumber (h : Reads .code loc s (w ++ cs) placed) (hheld : Held s.pending last ts)
    (hstop : ∀ c, w.head? = some c → s.pending.StopsBefore last c) (hne : w ≠ [])
    (hw : ∀ c ∈ w, isDecimalDigit c = true) :
    ∃ ps, AgreeAll ps ts ∧
      Reads .code (placeBehind loc w) ⟨ps.reverse ++ s.done, .number w.reverse false loc⟩ cs
        placed := by
  obtain ⟨c, more, rfl⟩ := List.exists_cons_of_ne_nil hne
  obtain ⟨hc, hmore⟩ := List.forall_mem_cons.mp hw
  have hword : isWordChar c = true := by rw [isWordChar, hc, Bool.or_true]
  have hstop := hstop c rfl
  obtain ⟨t, ht, hrest⟩ := h.wordChar hword
  -- a digit ends what is pending, since it goes on neither with a word nor with a number
  have hstart : s.step ⟨c, false, loc⟩ = s.flushTo (.number [c] false loc) := by
    rw [hheld.step_eq, Scan.stepCode, markClass_digit hc]
    cases hp : s.pending with
    | word v at_ =>
      rw [hp, Pending.StopsBefore, hword] at hstop
      cases hstop
    | number v pointed at_ =>
      rw [hp, Pending.StopsBefore, hc] at hstop
      cases hstop.1
    | _ => rfl
  obtain ⟨ps, hps, hflush⟩ := hheld.flushTo (.number [c] false loc)
  rw [hstart, hflush] at ht
  cases ht
  refine ⟨ps, hps, ?_⟩
  rw [List.reverse_cons]
  exact hrest.digits hmore

theorem number (h : Reads .code loc s (w ++ cs) placed) (hheld : Held s.pending last ts)
    (hstop : ∀ c, w.head? = some c → s.pending.StopsBefore last c) (hw : Numeral w)
    (hnext : ∀ c, cs.head? = some c → isDecimalDigit c = false ∧ (c = '.' → '.' ∈ w)) :
    ReadsTerminal s ts ⟨.number, Text.ofChars w, loc⟩ w cs placed := by
  -- what is pending behind the number is its characters, whether or not it has a point
  have hdone {pointed : Bool} {ps : List Placed} (hps : AgreeAll ps ts)
      (hpoint : pointed = true ↔ '.' ∈ w.reverse) (hread : Reads .code (placeBehind loc w)
        ⟨ps.reverse ++ s.done, .number w.reverse pointed loc⟩ cs placed) :
      ReadsTerminal s ts ⟨.number, Text.ofChars w, loc⟩ w cs placed := by
    have hheld := Held.number w.reverse pointed loc (by rwa [List.reverse_reverse]) hpoint
    rw [List.reverse_reverse] at hheld
    refine ⟨_, _, hheld, fun c hc => ?_, ⟨ps, ts, rfl, hps, rfl⟩, hread⟩
    exact ⟨(hnext c hc).1, fun hdot => List.mem_reverse.mpr ((hnext c hc).2 hdot)⟩
  cases hw with
  | whole _ hne hds =>
    obtain ⟨ps, hps, hread⟩ := h.wholeNumber hheld hstop hne hds
    apply hdone hps _ hread
    simp only [Bool.false_eq_true, false_iff, List.mem_reverse]
    intro hmem
    cases hds '.' hmem
  | pointed ds fs hne hds hfs =>
    have hhead : ∀ c, ds.head? = some c → s.pending.StopsBefore last c := by
      intro c hc
      apply hstop c
      rw [List.head?_append, hc]
      rfl
    rw [List.append_assoc] at h
    obtain ⟨ps, hps, hread⟩ := h.wholeNumber hheld hhead hne hds
    obtain ⟨t, ht, hrest⟩ := hread.code (by decide) (by decide) (opensComment_of_ne (by decide))
    cases ht
    have hread := hrest.digits hfs
    rw [placeBehind_append, placeBehind_cons] at hdone
    apply hdone hps _ (by simpa using hread)
    simp

theorem operatorRun {done : List Placed} {marks : List Mark}
    (hw : ∀ c ∈ w, c ∈ SignClass.operator.members ∧ c ≠ '/')
    (h : Reads .code loc ⟨done, .operators marks⟩ (w ++ cs) placed) :
    ∃ ns : List Mark, ns.map Mark.char = w ∧
      Reads .code (placeBehind loc w) ⟨done, .operators (ns.reverse ++ marks)⟩ cs placed := by
  induction w generalizing loc marks with
  | nil => exact ⟨[], rfl, h⟩
  | cons c w ih =>
    obtain ⟨⟨hc, hslash⟩, hw⟩ := List.forall_mem_cons.mp hw
    obtain ⟨t, ht, hrest⟩ := h.code (SignClass.ne_backslash hc) (SignClass.not_quote hc (by decide))
      (opensComment_of_ne hslash)
    -- no slash is in the run, so no comment can start in it
    have hstep : (Scan.mk done (.operators marks)).step ⟨c, false, loc⟩
        = .ok ⟨done, .operators (⟨c, false, loc⟩ :: marks)⟩ := by
      simp [Scan.step, Scan.stepCode, markClass_operator hc]
    rw [hstep] at ht
    cases ht
    obtain ⟨ns, hns, hread⟩ := ih hw hrest
    refine ⟨⟨c, false, loc⟩ :: ns, by rw [List.map_cons, hns], ?_⟩
    rw [List.reverse_cons, List.append_assoc]
    exact hread

/-- Behind the first character of an operator stands no slash, so no comment starts in it. -/
theorem mem_operator_tail {op : Operator} {more : List Char} (hchars : op.chars = c :: more) :
    ∀ d ∈ more, d ∈ SignClass.operator.members ∧ d ≠ '/' := by
  have htail : '/' ∉ op.chars.tail := by
    cases op <;> decide
  intro d hd
  have hmem : d ∈ op.chars := by
    rw [hchars]
    exact List.mem_cons_of_mem c hd
  refine ⟨Operator.mem_operatorChars hmem, ?_⟩
  rintro rfl
  exact htail (by rw [hchars]; exact hd)

theorem operator_agrees {kind : TerminalKind} (hkind : kind = .operator ∨ kind = .punct)
    (op : Operator) (fixity : Fixity) (loc : Location) :
    (Lexeme.operator op fixity).Agrees loc ⟨kind, op.spelling, loc⟩ := by
  refine ⟨rfl, ?_, ?_⟩
  · rcases hkind with rfl | rfl <;> simp [Lexeme.kind, Kind.terminals]
  · rcases hkind with rfl | rfl <;> rfl

theorem operator {op : Operator} {kind : TerminalKind}
    (h : Reads .code loc s (op.chars ++ cs) placed) (hheld : Held s.pending last ts)
    (hstop : ∀ c, op.chars.head? = some c → s.pending.StopsBefore last c)
    (hcomment : opensComment (op.chars ++ cs) = false) (hop : op ∉ foreignOperators)
    (hkind : kind = .operator ∨ kind = .punct)
    (hnext : Operator.leading? (op.chars ++ cs) = some op) :
    ReadsTerminal s ts ⟨kind, op.spelling, loc⟩ op.chars cs placed := by
  obtain ⟨c, more, hchars⟩ := List.exists_cons_of_ne_nil op.chars_ne_nil
  have hmore := mem_operator_tail hchars
  have hmem : c ∈ op.chars := by
    rw [hchars]
    exact List.mem_cons_self
  have hc : c ∈ SignClass.operator.members := Operator.mem_operatorChars hmem
  have hstop := hstop c (by rw [hchars]; rfl)
  have hagree := operator_agrees hkind op op.fixity loc
  have hends (marks : List Mark) :
      ∀ d, cs.head? = some d → (Pending.operators marks).StopsBefore op.chars d := by
    intro d hd
    obtain ⟨rest, rfl⟩ := List.head?_eq_some_iff.mp hd
    rw [Pending.StopsBefore, leading?_next hnext, op.leading?_chars]
  rw [hchars] at h hcomment
  obtain ⟨t, ht, hrest⟩ := h.code (SignClass.ne_backslash hc) (SignClass.not_quote hc (by decide))
    hcomment
  rw [hheld.step_eq, Scan.stepCode, markClass_operator hc] at ht
  have hone {ns : List Mark} (hns : ns.map Mark.char = more) :
      splitOperators 0 (⟨c, false, loc⟩ :: ns) = .ok [(.operator op op.fixity, loc)] :=
    splitOperators_cons (by rw [List.map_cons, hns, hchars])
  -- where no run is pending the operator starts one
  have hstart (ht : s.flushTo (.operators [⟨c, false, loc⟩]) = .ok t) :
      ReadsTerminal s ts ⟨kind, op.spelling, loc⟩ op.chars cs placed := by
    obtain ⟨ps, hps, hflush⟩ := hheld.flushTo (.operators [⟨c, false, loc⟩])
    rw [hflush] at ht
    cases ht
    obtain ⟨ns, hns, hread⟩ := operatorRun hmore hrest
    have hheld := Held.operators (ns.reverse ++ [⟨c, false, loc⟩]) [(.operator op op.fixity, loc)] op
      op.fixity loc [⟨kind, op.spelling, loc⟩] (by simpa using hone hns) rfl hop
      (.cons hagree .nil)
    rw [← placeBehind_cons, ← hchars] at hread
    exact ⟨⟨ps.reverse ++ s.done, .operators (ns.reverse ++ [⟨c, false, loc⟩])⟩, _, hheld, hends _,
      ⟨ps, ts, rfl, hps, rfl⟩, hread⟩
  cases hp : s.pending with
  | string q v at_ =>
    rw [hp] at hheld
    cases hheld
  | operators marks =>
    rw [hp] at ht hheld hstop
    cases ht
    obtain ⟨ns, hns, hread⟩ := operatorRun hmore hrest
    cases hheld with
    | operators _ ops op' fixity loc' _ hsplit hlast hop' hops =>
      -- the run is split as before, and the new operator stands behind
      have hsplit' : splitOperators 0 (marks.reverse ++ ⟨c, false, loc⟩ :: ns)
          = .ok (ops ++ [(.operator op op.fixity, loc)]) := by
        rw [splitOperators_append hsplit, hone hns]
        · rfl
        · intro o f l n ho hn
          cases hn
          rw [hlast] at ho
          cases ho
          rw [hstop, op'.leading?_chars]
      have hheld := Held.operators (ns.reverse ++ ⟨c, false, loc⟩ :: marks)
        (ops ++ [(.operator op op.fixity, loc)]) op op.fixity loc (ts ++ [⟨kind, op.spelling, loc⟩])
        (by simpa using hsplit') (by simp) hop (List.rel_append hops (.cons hagree .nil))
      rw [← placeBehind_cons, ← hchars] at hread
      exact ⟨⟨s.done, .operators (ns.reverse ++ ⟨c, false, loc⟩ :: marks)⟩, _, hheld, hends _,
        ⟨[], [], rfl, .nil, rfl⟩, hread⟩
  | nothing =>
    rw [hp] at ht
    exact hstart ht
  | word v at_ =>
    rw [hp] at ht
    exact hstart ht
  | number v pointed at_ =>
    rw [hp] at ht hstop hheld
    cases hheld with
    | number _ _ _ _ hpoint =>
      -- a point would go on with the number, unless it has one
      have hpointed : (c == '.' && !pointed) = false := by
        by_cases hdot : c = '.'
        · simp [hpoint.mpr (hstop.2 hdot)]
        · simp [hdot]
      simp only [hpointed, Bool.false_eq_true, if_false] at ht
      exact hstart ht

theorem delimiter {f : Family} {side : Side} (h : Reads .code loc s (f.char side :: cs) placed)
    (hheld : Held s.pending last ts) :
    ReadsTerminal s ts ⟨.punct, Text.ofChars [f.char side], loc⟩ [f.char side] cs placed := by
  have hc := SignClass.char_mem_delimiter f side
  -- no delimiter is a quote, a backslash or a slash
  have hslash : f.char side ≠ '/' := fun heq =>
    SignClass.not_mem (l := .operator) hc (by decide) (by rw [heq]; decide)
  obtain ⟨t, ht, hrest⟩ := h.code (SignClass.ne_backslash hc) (SignClass.not_quote hc (by decide))
    (opensComment_of_ne hslash)
  obtain ⟨ps, hps, hflush⟩ := hheld.flush
  rw [hheld.step_eq, Scan.stepCode, markClass_delimiter] at ht
  simp only [hflush] at ht
  cases ht
  have hagree : (Lexeme.delimiter f side).Agrees loc ⟨.punct, Text.ofChars [f.char side], loc⟩ := by
    refine ⟨rfl, by simp [Lexeme.kind, Kind.terminals], ?_⟩
    simp [Lexeme.value]
  refine ⟨⟨(.delimiter f side, loc) :: (ps.reverse ++ s.done), .nothing⟩, [], .nothing _,
    fun _ _ => trivial, ?_, hrest⟩
  exact ⟨ps ++ [(.delimiter f side, loc)], _, by simp, List.rel_append hps (.cons hagree .nil),
    List.append_nil _⟩

/-- Inside a literal marks stand for characters, up to the quote. -/
theorem quoted {done : List Placed} {body value v : List Char} {at_ : Location}
    (hq : Mark.isQuoteChar q = true) (hbody : Quoted q body value)
    (h : Reads (.quoted q) loc ⟨done, .string q v at_⟩ (body ++ q :: cs) placed) :
    Reads .code (placeBehind loc (body ++ [q]))
      ⟨(.string (Text.ofChars (v.reverse ++ value)), at_) :: done, .nothing⟩ cs placed := by
  induction hbody generalizing loc v with
  -- the quote closes it, a character stays, and a backslash takes the next one along
  | nil =>
    have hbackslash := SignClass.ne_backslash (SignClass.mem_quote.mp hq)
    obtain ⟨t, ht, hrest⟩ := h.plain hbackslash
    have hplain : (Mark.mk q false loc).isPlain q = true := by simp [Mark.isPlain]
    simp only [CommentMode.step, hplain, if_true, List.foldlM_cons, List.foldlM_nil, bind_pure,
      Scan.step] at ht hrest
    cases ht
    rw [List.append_nil, Text.isEmpty_ofChars, List.isEmpty_reverse]
    exact hrest
  | plain c body value hquote hslash _ ih =>
    obtain ⟨t, ht, hrest⟩ := h.plain hslash
    have hplain : (Mark.mk c false loc).isPlain q = false := by simp [Mark.isPlain, hquote]
    simp only [CommentMode.step, hplain, Bool.false_eq_true, if_false, List.foldlM_cons,
      List.foldlM_nil, bind_pure, Scan.step] at ht hrest
    cases ht
    have hread := ih hrest
    rw [Mark.decoded, if_neg Bool.false_ne_true, List.reverse_cons, List.append_assoc] at hread
    exact hread
  | escaped c body value _ ih =>
    obtain ⟨t, ht, hrest⟩ := h.escaped
    have hplain : (Mark.mk c true loc).isPlain q = false := rfl
    simp only [CommentMode.step, hplain, Bool.false_eq_true, if_false, List.foldlM_cons,
      List.foldlM_nil, bind_pure, Scan.step] at ht hrest
    cases ht
    have hread := ih hrest
    rw [List.reverse_cons, List.append_assoc] at hread
    exact hread

theorem string {body value : List Char}
    (h : Reads .code loc s (q :: (body ++ q :: cs)) placed) (hheld : Held s.pending last ts)
    (hq : Mark.isQuoteChar q = true) (hbody : Quoted q body value) :
    ReadsTerminal s ts ⟨.string, Text.ofChars (q :: (body ++ [q])), loc⟩ (q :: (body ++ [q])) cs
      placed := by
  have hclass := SignClass.mem_quote.mp hq
  obtain ⟨t, ht, hinside⟩ := h.plain (SignClass.ne_backslash hclass)
  have hopen : CommentMode.stepCode ⟨q, false, loc⟩ = (.quoted q, [⟨q, false, loc⟩]) := by
    simp [CommentMode.stepCode, Mark.isQuote, hq]
  have hmark : (Mark.mk q false loc).markClass = .quote := by
    simp only [SignClass.members, List.mem_cons, List.not_mem_nil, or_false] at hclass
    rcases hclass with rfl | rfl | rfl <;> rfl
  rw [CommentMode.step, hopen] at ht hinside
  simp only [List.foldlM_cons, List.foldlM_nil, bind_pure] at ht
  -- the quote completes what is pending and opens the literal
  obtain ⟨ps, hps, hflush⟩ := hheld.flushTo (.string q [] loc)
  rw [hheld.step_eq, Scan.stepCode, hmark] at ht
  simp only [hflush] at ht
  cases ht
  have hread := hinside.quoted hq hbody
  have hagree : (Lexeme.string (Text.ofChars value)).Agrees loc
      ⟨.string, Text.ofChars (q :: (body ++ [q])), loc⟩ := by
    refine ⟨rfl, by simp [Lexeme.kind, Kind.terminals], ?_⟩
    rw [if_pos rfl, unquote_literal hq hbody]
    rfl
  refine ⟨⟨(.string (Text.ofChars value), loc) :: (ps.reverse ++ s.done), .nothing⟩, [],
    .nothing _, fun _ _ => trivial, ?_, hread⟩
  exact ⟨ps ++ [(.string (Text.ofChars value), loc)], _, by simp,
    List.rel_append hps (.cons hagree .nil), List.append_nil _⟩

theorem blank (h : Reads .code loc s (c :: cs) placed) (hheld : Held s.pending last ts)
    (hc : isSpaceChar c = true) :
    ∃ ps, AgreeAll ps ts ∧
      Reads .code (loc.after (.char c)) ⟨ps.reverse ++ s.done, .nothing⟩ cs placed := by
  have hclass := SignClass.mem_blank.mp hc
  have hslash : c ≠ '/' := by
    rintro rfl
    cases hc
  obtain ⟨t, ht, hrest⟩ := h.code (SignClass.ne_backslash hclass)
    (SignClass.not_quote hclass (by decide)) (opensComment_of_ne hslash)
  -- the class of white space, character by character
  have hmark : (Mark.mk c false loc).markClass = .blank := by
    simp only [SignClass.members, List.mem_cons, List.not_mem_nil, or_false] at hclass
    rcases hclass with rfl | rfl | rfl | rfl | rfl | rfl <;> rfl
  obtain ⟨ps, hps, hflush⟩ := hheld.flush
  rw [hheld.step_eq, Scan.stepCode, hmark] at ht
  simp only [hflush] at ht
  cases ht
  exact ⟨ps, hps, hrest⟩

/-- White space completes what is pending. -/
theorem blanks (h : Reads .code loc s (w ++ cs) placed) (hheld : Held s.pending last ts)
    (hne : w ≠ []) (hw : ∀ c ∈ w, isSpaceChar c = true) :
    ∃ s', s'.pending = .nothing ∧ GoesOn s ts [] s' [] ∧
      Reads .code (placeBehind loc w) s' cs placed := by
  obtain ⟨c, more, rfl⟩ := List.exists_cons_of_ne_nil hne
  obtain ⟨hc, hmore⟩ := List.forall_mem_cons.mp hw
  obtain ⟨ps, hps, hread⟩ := h.blank hheld hc
  refine ⟨⟨ps.reverse ++ s.done, .nothing⟩, rfl, ⟨ps, ts, rfl, hps, rfl⟩, ?_⟩
  -- the first blank does it, and the others find nothing
  rw [placeBehind_cons]
  clear h hne hw
  generalize loc.after (.char c) = loc' at hread
  induction more generalizing loc' with
  | nil => exact hread
  | cons d more ih =>
    obtain ⟨hd, hmore⟩ := List.forall_mem_cons.mp hmore
    obtain ⟨qs, hqs, hread⟩ := hread.blank (Held.nothing []) hd
    cases hqs
    exact ih hmore _ hread

/-- At the end what is held is completed. -/
theorem finish (h : Reads .code loc s [] placed) (hheld : Held s.pending last ts) :
    ∃ ps, placed = s.done.reverse ++ ps ∧ AgreeAll ps ts := by
  obtain ⟨marks, kept, hmarks, hkept, hfold⟩ := h
  cases hmarks
  cases hkept
  obtain ⟨ps, hps, hflush⟩ := hheld.flush
  have hfinish : s.finish = (do
      let s' ← s.flush
      return s'.done.reverse) := by
    unfold Scan.finish
    split
    -- a literal that is open holds no terminal
    · next hp =>
      rw [hp] at hheld
      cases hheld
    · rfl
  rw [List.foldlM_nil, pure_bind, hfinish, hflush] at hfold
  cases hfold
  exact ⟨ps, by simp, hps⟩

end Reads

/-! ## §6 Whole sources -/

/-- Both scanners before a piece: the terminals right before are what the tokenizer holds, and the
next character does not go on with them unless comments stand in between. -/
structure Between (gap : Gap) (s : Scan) (last : List Char) (ts : List Terminal)
    (cs : List Char) : Prop where
  held : Held s.pending last ts
  wide : gap = .wide → s.pending = .nothing
  touching : ∀ t, gap = .touching t → t = glyphsOf last ∧
    ∀ c, cs.head? = some c → s.pending.StopsBefore last c
  commented : ∀ t, gap = .commented t → t = glyphsOf last

namespace Between

variable {gap : Gap} {s : Scan} {last w cs : List Char} {ts : List Terminal} {c : Char}

theorem stopsBefore (h : Between gap s last ts (w ++ cs)) (hw : w.head? = some c)
    (hhides : gap.hides (glyphsOf w) = false) : s.pending.StopsBefore last c := by
  obtain ⟨more, rfl⟩ := List.head?_eq_some_iff.mp hw
  -- what the gap hides is known from its kind
  cases gap with
  | wide =>
    rw [h.wide rfl]
    trivial
  | touching t => exact (h.touching t rfl).2 c rfl
  | commented t =>
    apply h.held.stopsBefore
    rw [← h.commented t rfl]
    exact hhides

/-- Behind a comment the tokenizer holds what it held before. -/
theorem widened (h : Between gap s last ts cs) (ds : List Char) :
    Between gap.widened s last ts ds := by
  refine ⟨h.held, ?_, ?_, ?_⟩
  · intro hgap
    cases gap with
    | wide => exact h.wide rfl
    | _ => cases hgap
  · intro t hgap
    cases gap <;> cases hgap
  · intro t hgap
    cases gap with
    | wide => cases hgap
    | touching u => cases hgap; exact (h.touching t rfl).1
    | commented u => cases hgap; exact h.commented t rfl

end Between

theorem GoesOn.agree {s s' : Scan} {ts ts' new items : List Terminal} {ps placed : List Placed}
    (h : GoesOn s ts new s' ts') (hplaced : placed = s'.done.reverse ++ ps)
    (hps : AgreeAll ps (ts' ++ items)) :
    ∃ qs, placed = s.done.reverse ++ qs ∧ AgreeAll qs (ts ++ (new ++ items)) := by
  obtain ⟨before, us, hdone, hbefore, heq⟩ := h
  refine ⟨before ++ ps, by rw [hplaced, hdone]; simp, ?_⟩
  rw [← List.append_assoc, ← heq, List.append_assoc]
  exact List.rel_append hbefore hps

/-- From any place between two pieces, with no more characters to come, both scanners find the
same. -/
def AgreeWithin (n : Nat) : Prop :=
  ∀ {cs : List Char} {gap : Gap} {loc ending : Location} {s : Scan} {last : List Char}
    {ts items : List Terminal} {placed : List Placed}, cs.length ≤ n → Between gap s last ts cs →
    scanFrom loc 0 (glyphsOf cs) = .ok (items, ending) →
    plainComments gap (pieces 0 (glyphsOf cs)) = true → Reads .code loc s cs placed →
    ∃ ps, placed = s.done.reverse ++ ps ∧ AgreeAll ps (ts ++ items)

section

variable {n : Nat} {gap : Gap} {loc ending : Location} {s : Scan} {last w cs : List Char}
  {ts items : List Terminal} {placed : List Placed}

/-- A terminal is read, and what follows agrees behind it. -/
theorem agree_terminal {kind : TerminalKind} (ih : AgreeWithin n) (hn : (w ++ cs).length ≤ n + 1)
    (hw : w ≠ []) (hrule : firstRule? (glyphsOf (w ++ cs)) = some (.terminal kind, w.length))
    (hbetween : Between gap s last ts (w ++ cs))
    (hscan : scanFrom loc 0 (glyphsOf (w ++ cs)) = .ok (items, ending))
    (hplain : plainComments gap (pieces 0 (glyphsOf (w ++ cs))) = true)
    (hreads : (∀ c, w.head? = some c → s.pending.StopsBefore last c) →
      ReadsTerminal s ts ⟨kind, Text.ofChars w, loc⟩ w cs placed) :
    ∃ ps, placed = s.done.reverse ++ ps ∧ AgreeAll ps (ts ++ items) := by
  rw [pieces_cons hw hrule, plainComments, Bool.and_eq_true, Bool.not_eq_true'] at hplain
  rw [scanFrom_terminal loc hw hrule] at hscan
  obtain ⟨⟨more, _⟩, hscan, heq⟩ := bind_eq_ok.mp hscan
  cases heq
  -- the terminal is read, and what is behind it touches it
  obtain ⟨s', ts', hheld, hnext, hgoes, hread⟩ :=
    hreads fun c hc => hbetween.stopsBefore hc hplain.1
  have hshorter : cs.length ≤ n := by
    have hpos := List.length_pos_iff.mpr hw
    rw [List.length_append] at hn
    omega
  have hbetween : Between (.touching (glyphsOf w)) s' w ts' cs :=
    ⟨hheld, by simp, fun t ht => ⟨by cases ht; rfl, hnext⟩, by simp⟩
  obtain ⟨ps, hplaced, hps⟩ := ih hshorter hbetween hscan hplain.2 hread
  exact hgoes.agree hplaced hps

theorem agree_blanks (ih : AgreeWithin n) (hn : (w ++ cs).length ≤ n + 1) (hne : w ≠ [])
    (hw : ∀ c ∈ w, isSpaceChar c = true) (hstop : ∀ c, cs.head? = some c → isSpaceChar c = false)
    (hbetween : Between gap s last ts (w ++ cs))
    (hscan : scanFrom loc 0 (glyphsOf (w ++ cs)) = .ok (items, ending))
    (hplain : plainComments gap (pieces 0 (glyphsOf (w ++ cs))) = true)
    (hread : Reads .code loc s (w ++ cs) placed) :
    ∃ ps, placed = s.done.reverse ++ ps ∧ AgreeAll ps (ts ++ items) := by
  have hrule := firstRule?_space hne hw hstop
  rw [pieces_cons hne hrule, plainComments] at hplain
  rw [scanFrom_dropped loc hne (.inl rfl) hrule] at hscan
  -- blanks complete what is held
  obtain ⟨s', hpending, hgoes, hread⟩ := hread.blanks hbetween.held hne hw
  have hshorter : cs.length ≤ n := by
    have hpos := List.length_pos_iff.mpr hne
    rw [List.length_append] at hn
    omega
  have hbetween : Between .wide s' [] [] cs :=
    ⟨hpending ▸ .nothing [], fun _ => hpending, by simp, by simp⟩
  obtain ⟨ps, hplaced, hps⟩ := ih hshorter hbetween hscan hplain hread
  exact hgoes.agree hplaced hps

/-- A comment is passed over by both. -/
theorem agree_comment (ih : AgreeWithin n) (hn : cs.length ≤ n + 1)
    (hcomment : opensComment cs = true) (hbetween : Between gap s last ts cs)
    (hscan : scanFrom loc 0 (glyphsOf cs) = .ok (items, ending))
    (hplain : plainComments gap (pieces 0 (glyphsOf cs)) = true)
    (hread : Reads .code loc s cs placed) :
    ∃ ps, placed = s.done.reverse ++ ps ∧ AgreeAll ps (ts ++ items) := by
  have hrule := firstRule?_comment hcomment
  cases hlength : commentLength? (glyphsOf cs) with
  | none =>
    -- a comment that is not closed spoils the source
    rw [hlength] at hrule
    cases cs with
    | nil => cases hcomment
    | cons c cs =>
      obtain ⟨rule, m, hfirst, hopen, _⟩ := firstRule?_of_scanFrom hscan
      rw [hrule] at hfirst
      cases hfirst
      exact absurd rfl hopen
  | some m =>
    rw [hlength] at hrule
    obtain ⟨hpos, hle⟩ := commentLength?_bounds hlength
    rw [List.length_map] at hle
    have hsplit := (List.take_append_drop m cs).symm
    have hsize : (cs.take m).length = m := List.length_take_of_le hle
    have hne : cs.take m ≠ [] := by
      apply List.ne_nil_of_length_pos
      omega
    have hrule' : firstRule? (glyphsOf (cs.take m ++ cs.drop m))
        = some (.comment, (cs.take m).length) := by
      rw [← hsplit, hsize]
      exact hrule
    rw [hsplit, scanFrom_dropped loc hne (.inr rfl) hrule'] at hscan
    rw [hsplit, pieces_cons hne hrule', plainComments, Bool.and_eq_true, Bool.not_eq_true'] at hplain
    have hslash : '\\' ∉ cs.take m := by
      intro hmem
      have hcontains : (glyphsOf (cs.take m)).contains (.char '\\') = true :=
        List.contains_iff_mem.mpr (List.mem_map_of_mem hmem)
      rw [hcontains] at hplain
      cases hplain.1
    have hshorter : (cs.drop m).length ≤ n := by
      rw [List.length_drop]
      omega
    exact ih hshorter (hbetween.widened _) hscan hplain.2 (hread.comment hlength hslash)

end

/-- Both scanners find the same from any place between two pieces. -/
theorem agreeWithin (n : Nat) : AgreeWithin n := by
  induction n with
  | zero =>
    intro cs gap loc ending s last ts items placed hn hbetween hscan hplain hread
    obtain rfl := List.length_eq_zero_iff.mp (Nat.le_zero.mp hn)
    cases hscan
    rw [List.append_nil]
    exact hread.finish hbetween.held
  | succ n ih =>
    intro cs gap loc ending s last ts items placed hn hbetween hscan hplain hread
    cases cs with
    | nil =>
      cases hscan
      rw [List.append_nil]
      exact hread.finish hbetween.held
    | cons c cs =>
      -- comments come first, and then the piece that the text starts with decides
      cases hcomment : opensComment (c :: cs) with
      | true => exact agree_comment ih hn hcomment hbetween hscan hplain hread
      | false =>
        have hstarts := (starts_of_scanFrom hscan).resolve_left (by rw [hcomment]; decide)
        revert hn hbetween hscan hplain hread hcomment
        generalize c :: cs = all at hstarts
        intro hn hbetween hscan hplain hread hcomment
        cases hstarts with
        | blanks w cs hne hw hstop =>
          exact agree_blanks ih hn hne hw hstop hbetween hscan hplain hread
        | word w cs hw hstop =>
          have hne : w ≠ [] := by
            obtain ⟨c, more, rfl, _⟩ := hw
            simp
          exact agree_terminal ih hn hne (firstRule?_word hw hstop) hbetween hscan hplain
            fun h => hread.word hbetween.held h hw hstop
        | number w cs hw hstop =>
          have hne : w ≠ [] := by
            obtain ⟨c, more, rfl, _⟩ := hw.head
            simp
          exact agree_terminal ih hn hne (firstRule?_number hw hstop) hbetween hscan hplain
            fun h => hread.number hbetween.held h hw hstop
        | string q body value cs hq hbody =>
          have hsplit : q :: (body ++ q :: cs) = (q :: (body ++ [q])) ++ cs := by simp
          have hrule : firstRule? (glyphsOf (q :: (body ++ q :: cs))) = _ :=
            firstRule?_string hq hbody
          have hterminal := hread.string hbetween.held hq hbody
          rw [hsplit] at hn hbetween hscan hplain hrule
          exact agree_terminal ih hn (by simp) hrule hbetween hscan hplain fun _ => hterminal
        | operator op cs hop hlead =>
          obtain ⟨kind, hkind, hrule⟩ :=
            firstRule?_operator hlead (divide_of_opensComment hcomment) hop
          exact agree_terminal ih hn op.chars_ne_nil hrule hbetween hscan hplain
            fun h => hread.operator hbetween.held h hcomment hop hkind hlead
        | delimiter f side cs =>
          have hrule : firstRule? (glyphsOf ([f.char side] ++ cs))
              = some (.terminal .punct, [f.char side].length) := firstRule?_delimiter f side cs
          exact agree_terminal ih hn (List.cons_ne_nil _ _) hrule hbetween hscan hplain
            fun _ => hread.delimiter hbetween.held

/-- **Agreement of the scanners**: a source that both accept has the same tokens and terminals, if
no comment has a backslash or hides that a terminal goes on. -/
theorem tokenize_agrees {source : Text} {tokens : List Token} {stream : Stream}
    (htokens : tokenize source = .ok tokens) (hstream : scanTerminals source = .ok stream)
    (hplain : plainComments .wide (pieces 0 source.glyphs) = true) :
    List.Forall₂ (fun x t => x.lexeme.Agrees x.loc t) tokens stream.items.toList := by
  obtain ⟨marks, hmarks, htokens⟩ := bind_eq_ok.mp htokens
  obtain ⟨kept, hkept, htokens⟩ := bind_eq_ok.mp htokens
  obtain ⟨placed, hplaced, heq⟩ := bind_eq_ok.mp htokens
  cases heq
  obtain ⟨⟨items, ending⟩, hscan, heq⟩ := bind_eq_ok.mp hstream
  cases heq
  -- the tokenizer accepts only characters
  obtain ⟨hglyphs, _⟩ := Mark.raw_of_ofGlyphs hmarks
  rw [hglyphs] at hscan hplain
  have hread : Reads .code .start .start (marks.flatMap Mark.raw) placed := by
    refine ⟨marks, kept, ?_, hkept, hplaced⟩
    rw [glyphsOf, ← hglyphs]
    exact hmarks
  have hbetween : Between .wide .start [] [] (marks.flatMap Mark.raw) :=
    ⟨.nothing [], fun _ => rfl, by simp, by simp⟩
  obtain ⟨ps, hps, hagree⟩ := agreeWithin _ (Nat.le_refl _) hbetween hscan hplain hread
  obtain rfl : placed = ps := hps
  exact numberFrom_agrees (markLeading_agrees hagree)

/-- Comments of both kinds between terminals that do not go on, and one in a literal. -/
theorem tokenize_agrees_commented :
    let source : Text := "x+=/* n */-1.5/**/;// f('\n\"/*\\\"*/\", a)"
    ∃ tokens stream, tokenize source = .ok tokens ∧ scanTerminals source = .ok stream ∧
      plainComments .wide (pieces 0 source.glyphs) = true ∧
      List.Forall₂ (fun x t => x.lexeme.Agrees x.loc t) tokens stream.items.toList := by
  intro source
  have htokens : tokenize source = .ok ((tokenize source).toOption.getD []) := by decide +kernel
  have hstream : scanTerminals source = .ok ((scanTerminals source).toOption.getD ⟨#[], .start⟩) := by
    decide +kernel
  have hplain : plainComments .wide (pieces 0 source.glyphs) = true := by decide +kernel
  exact ⟨_, _, htokens, hstream, hplain, tokenize_agrees htokens hstream hplain⟩

/-- Where a comment has a backslash before the end of its line, or hides that a name goes on, the
scanners find different numbers of tokens. -/
theorem scanners_disagree :
    (tokenize "1; // c \\\n2;").map List.length = .ok 2 ∧
      (scanTerminals "1; // c \\\n2;").map (·.items.size) = .ok 4 ∧
      (tokenize "a/**/b").map List.length = .ok 1 ∧
      (scanTerminals "a/**/b").map (·.items.size) = .ok 2 := by
  decide +kernel

end Scriptlet
